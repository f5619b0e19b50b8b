import MerkleStore.CommandLine.Usage

/-!
# Arguments

What can be said on the command line: options that go before the name of a
command, the name, and what belongs to the command, in any order. An option is
given once at most; its value is the rest of the same argument or the next one,
which must not look like an option. Everything behind `--` is a value. Arguments are
read from the left, and the first one that is refused or asks for a text settles what
is done.
-/

namespace MerkleStore.CommandLine

open Usage

/-- How results are written. -/
inductive Format
  | json
  | text
deriving DecidableEq

/-- What goes before a command. -/
structure Options where
  database : Option String
  config : Option String
  format : Format
  /-- Keys and values are in hexadecimal. -/
  hex : Bool
deriving DecidableEq

/-- What to do. -/
inductive Command
  | init
  | createTree (tree : String)
  | insert (tree key value : String) (reference side : Option String)
  | delete (tree key : String)
  | get (tree key : String)
  | root (tree : String) (generation : Option Nat)
  | roots (tree : String) (first : Nat) (last : Option Nat)
  | operations (tree : String) (first last : Nat)
  | nodes (tree : String) (root : Option String)
  | ancestors (tree node : String)
  | commit (tree : String) (generation : Nat)
  | check
  | diff (tree first : String) (last : Option String)
  | trees
  | serve (host : Option String) (port idleTimeout : Option Nat)
  | replicate (url tree root : String)
deriving DecidableEq

/-! ### Options and values -/

/-- What has been found so far. -/
structure Found where
  options : List (String × String) := []
  values : List String := []

namespace Found

/-- The value of an option that was given. -/
def option? (f : Found) (name : String) : Option String := f.options.lookup name

/-- The number an option was given. -/
def number? (f : Found) (name : String) : Option Nat := (f.option? name).bind Usage.number?

/-- One option more, if it has not been given before. -/
def addOption? (f : Found) (name value : String) : Option Found :=
  if (f.option? name).isSome then none
  else some { f with options := f.options ++ [(name, value)] }

/-- One value more, if it is one that the next place takes. -/
def addValue? (positionals : List Positional) (f : Found) (value : String) : Option Found :=
  if positionals[f.values.length]?.any (·.accepts value) then
    some { f with values := f.values ++ [value] }
  else none

end Found

/-- Whether an argument is an option. -/
def looksLikeOption (arg : String) : Bool :=
  match arg.toList with
  | '-' :: _ :: _ => true
  | _ => false

/-- Splits a text at its first equals sign. -/
def splitValue (cs : List Char) : List Char × Option (List Char) :=
  match cs.dropWhile (· ≠ '=') with
  | _ :: value => (cs.takeWhile (· ≠ '='), some value)
  | [] => (cs, none)

/-- What one argument means. -/
inductive Token
  | value (text : String)
  /-- Only values follow. -/
  | separator
  /-- An option, with its value if that is in the same argument. -/
  | option (flag : Flag) (value : Option String)
  | unknown

/-- The meaning of an argument. Behind a letter without a value nothing is looked
at. -/
def tokenOf (flags : List Flag) (arg : String) : Token :=
  match arg.toList with
  | ['-', '-'] => .separator
  | '-' :: '-' :: cs =>
      let (name, value) := splitValue cs
      match flags.find? (·.long == String.ofList name) with
      | some flag => .option flag (value.map String.ofList)
      | none => .unknown
  | '-' :: c :: cs =>
      match flags.find? (·.letter == some c) with
      | none => .unknown
      | some flag =>
        match flag.effect, cs with
        | .value _ _, '=' :: cs => .option flag (some (String.ofList cs))
        | .value _ _, c :: cs => .option flag (some (String.ofList (c :: cs)))
        | _, _ => .option flag none
  | _ => .value arg

/-- Why arguments give no command: they are not understood, or only ask for a text. -/
inductive Stop
  | usage
  | print (text : String)
deriving DecidableEq

/-- A part of a command line: what is before the name of a command, or behind it. -/
structure Part where
  flags : List Flag
  /-- What is told by its place; absent where the first value ends the part. -/
  positionals : Option (List Positional)
  page : String

namespace Part

/-- What is before the name of a command. -/
def program : Part := ⟨programFlags, none, programPage⟩

/-- What is behind the name of a command. -/
def ofForm (f : Form) : Part := ⟨f.flags, some f.positionals, f.page⟩

/-- Goes through the arguments of a part, and gives what is left behind it. -/
def read (p : Part) : Found → List String → Except Stop (Found × List String)
  | f, [] => .ok (f, [])
  | f, arg :: args =>
      match tokenOf p.flags arg with
      | .unknown => .error .usage
      | .value v =>
          match p.positionals with
          | none => .ok (f, arg :: args)
          | some ps =>
            match f.addValue? ps v with
            | some f => read p f args
            | none => .error .usage
      | .separator =>
          match p.positionals with
          | none => .error .usage
          | some ps =>
            match args.foldlM (Found.addValue? ps) f with
            | some f => .ok (f, [])
            | none => .error .usage
      | .option flag value =>
          match flag.effect, value, args with
          | .help, none, _ => .error (.print p.page)
          | .version, none, _ => .error (.print versionText)
          | .mark, none, args =>
              match f.addOption? flag.long "" with
              | some f => read p f args
              | none => .error .usage
          | .value _ accepts, some v, args =>
              match f.addOption? flag.long v, accepts v with
              | some f, true => read p f args
              | _, _ => .error .usage
          | .value _ accepts, none, v :: args =>
              match f.addOption? flag.long v, accepts v && !looksLikeOption v with
              | some f, true => read p f args
              | _, _ => .error .usage
          | _, _, _ => .error .usage

end Part

/-! ### Commands -/

/-- The command of this name with what was found behind it. -/
def commandOf (name : String) (f : Found) : Option Command :=
  match name, f.values with
  | "init", [] => some .init
  | "create-tree", [tree] => some (.createTree tree)
  | "insert", [tree, key, value] =>
      some (.insert tree key value (f.option? "reference") (f.option? "side"))
  | "delete", [tree, key] => some (.delete tree key)
  | "get", [tree, key] => some (.get tree key)
  | "root", [tree] => some (.root tree (f.number? "generation"))
  | "roots", [tree] => some (.roots tree ((f.number? "from").getD 0) (f.number? "to"))
  | "operations", [tree, first, last] => do
      return .operations tree (← number? first) (← number? last)
  | "nodes", [tree] => some (.nodes tree (f.option? "root"))
  | "ancestors", [tree, node] => some (.ancestors tree node)
  | "commit", [tree, generation] => do return .commit tree (← number? generation)
  | "check", [] => some .check
  | "diff", [tree, first] => some (.diff tree first none)
  | "diff", [tree, first, last] => some (.diff tree first (some last))
  | "trees", [] => some .trees
  | "serve", [] =>
      some (.serve (f.option? "host") ((f.option? "port").bind port?) (f.number? "idle-timeout"))
  | "replicate", [url, tree, root] => some (.replicate url tree root)
  | _, _ => none

/-- The options that were found. -/
def optionsOf (f : Found) : Options where
  database := f.option? "database"
  config := f.option? "config"
  format := if f.option? "format" = some "text" then .text else .json
  hex := (f.option? "hex").isSome

/-- What the names behind `help` ask for. -/
def helpStop (names : List String) : Stop :=
  match pageOf? names with
  | some page => .print page
  | none => .usage

/-- The meaning of a command line. -/
def parse (args : List String) : Except Stop (Options × Command) := do
  let (top, rest) ← Part.program.read {} args
  match rest with
  | [] => throw .usage
  | name :: args =>
    if name = helpForm.name then throw (helpStop args)
    match form? name with
    | none => throw .usage
    | some form =>
      let (found, _) ← (Part.ofForm form).read {} args
      match commandOf name found with
      | some c => return (optionsOf top, c)
      | none => throw .usage

end MerkleStore.CommandLine
