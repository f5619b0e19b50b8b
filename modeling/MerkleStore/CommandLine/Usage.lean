import MerkleStore.Decimal
import MerkleStore.Json.Scan

/-!
# Usage

What can be said on the command line, as data: the options that go before the name of
a command, the commands, and for each the values that are told by their place and its
options. The page that `--help` prints is made from this (`Form.page`,
`programPage`), and command lines are read by it.
-/

namespace MerkleStore.CommandLine.Usage

/-! ### Values -/

/-- A number of eight bytes. -/
def number? (s : String) : Option Nat := (Decimal.read Json.wordBound s).toOption

/-- The number of a port. -/
def port? (s : String) : Option Nat := (Decimal.read (Nat.pow 2 16) s).toOption

def isAnything (_ : String) : Bool := true

def isNumber (s : String) : Bool := (number? s).isSome

def isPort (s : String) : Bool := (port? s).isSome

def isPath (s : String) : Bool := s ≠ ""

def isFormat (s : String) : Bool := s == "json" || s == "text"

/-- Whether a value has to be there. -/
inductive Presence
  | required
  | optional
  /-- Any number of values may be there. -/
  | repeated
deriving DecidableEq

/-- A value that is told by its place. -/
structure Positional where
  name : String
  about : String := ""
  presence : Presence := .required
  accepts : String → Bool := isAnything

/-- What an option does. -/
inductive Effect
  /-- It is there or not. -/
  | mark
  /-- It gives a value. -/
  | value (name : String) (accepts : String → Bool)
  /-- It prints how to use the program, and nothing else is done. -/
  | help
  /-- It prints the version of the program, and nothing else is done. -/
  | version

/-- An option. -/
structure Flag where
  letter : Option Char
  long : String
  about : String
  effect : Effect

/-- What a command takes. -/
structure Form where
  name : String
  about : String
  positionals : List Positional := []
  flags : List Flag := []

/-! ### The program -/

def programName : String := "arbor"

/-- What `--version` prints. -/
def versionText : String := programName ++ " 0.1.0\n"

def programAbout : String :=
  "An authenticated, versioned key-value store on a binary Merkle tree"

def helpFlag : Flag := ⟨some 'h', "help", "Print help", .help⟩

def treeId : Positional := { name := "TREE_ID" }

/-- The options before a command. -/
def programFlags : List Flag :=
  [⟨some 'd', "database",
      "Path to the database file (overrides the config file and ARBOR_DB_PATH)",
      .value "DATABASE" isPath⟩,
    ⟨some 'c', "config", "Path to a JSON config file", .value "CONFIG" isPath⟩,
    ⟨some 'f', "format",
      "Output format (json or text) [default: json] [possible values: json, text]",
      .value "FORMAT" isFormat⟩,
    ⟨none, "hex", "Keys and values on the command line and in output are hex encoded", .mark⟩,
    helpFlag, ⟨some 'V', "version", "Print version", .version⟩]

/-- The commands that work on a database. -/
def workForms : List Form :=
  [{ name := "init", about := "Initialize a new database" },
    { name := "create-tree", about := "Create an empty tree"
      positionals := [{ name := "TREE_ID", about := "32-byte tree id, hex encoded" }] },
    { name := "insert", about := "Insert a key/value pair"
      positionals := [treeId, { name := "KEY" }, { name := "VALUE" }]
      flags :=
        [⟨some 'r', "reference", "Existing node to attach beside (omit for an empty tree)",
            .value "REFERENCE" isAnything⟩,
          ⟨some 's', "side", "Side of the reference node the new leaf goes on",
            .value "SIDE" isAnything⟩] },
    { name := "delete", about := "Delete a key"
      positionals := [treeId, { name := "KEY" }] },
    { name := "get", about := "Look up a key in the latest generation"
      positionals := [treeId, { name := "KEY" }] },
    { name := "root", about := "Show the latest root, or one generation"
      positionals := [treeId]
      flags := [⟨some 'g', "generation", "", .value "GENERATION" isNumber⟩] },
    { name := "roots", about := "List roots in a generation range"
      positionals := [treeId]
      flags :=
        [⟨none, "from", "[default: 0]", .value "FROM" isNumber⟩,
          ⟨none, "to", "Exclusive upper bound (defaults to past the latest generation)",
            .value "TO" isNumber⟩] },
    { name := "operations", about := "List the operations producing generations from+1..=max"
      positionals :=
        [treeId, { name := "FROM", accepts := isNumber }, { name := "MAX", accepts := isNumber }] },
    { name := "nodes", about := "List key/value pairs left to right"
      positionals := [treeId]
      flags :=
        [⟨some 'r', "root", "A root hash the tree has had (defaults to the latest)",
            .value "ROOT" isAnything⟩] },
    { name := "ancestors"
      about := "Show the internal nodes from a node's parent up to the latest root"
      positionals := [treeId, { name := "HASH" }] },
    { name := "commit", about := "Mark a generation committed"
      positionals := [treeId, { name := "GENERATION", accepts := isNumber }] },
    { name := "check", about := "Verify every stored hash" },
    { name := "diff"
      about := "Show key/value changes between two roots (\"none\" is the empty tree)"
      positionals :=
        [treeId, { name := "FROM" },
          { name := "TO", about := "Defaults to the latest root", presence := .optional }] },
    { name := "trees", about := "List known trees" },
    { name := "serve", about := "Run the sync server"
      flags :=
        [⟨none, "host", "", .value "HOST" isAnything⟩,
          ⟨some 'p', "port", "", .value "PORT" isPort⟩,
          ⟨none, "idle-timeout", "Close connections idle for this many seconds",
            .value "IDLE_TIMEOUT" isNumber⟩] },
    { name := "replicate", about := "Replicate a tree from a sync server up to a root hash"
      positionals :=
        [{ name := "URL", about := "Server URL, e.g. ws://127.0.0.1:8575" }, treeId,
          { name := "ROOT" }] }]

/-- The command that prints pages. It has no option of its own. -/
def helpForm : Form where
  name := "help"
  about := "Print this message or the help of the given subcommand(s)"
  positionals :=
    [{ name := "COMMAND", about := "Print help for the subcommand(s)", presence := .repeated }]

/-- What the command of a name takes, with the option that prints its page. -/
def form? (name : String) : Option Form :=
  (workForms.find? (·.name == name)).map fun c => { c with flags := c.flags ++ [helpFlag] }

/-! ### Pages -/

/-- How a value is shown. -/
def Positional.label (p : Positional) : String :=
  match p.presence with
  | .required => "<" ++ p.name ++ ">"
  | .optional => "[" ++ p.name ++ "]"
  | .repeated => "[" ++ p.name ++ "]..."

/-- How an option is shown; one without a letter is indented by the width of one. -/
def Flag.label (f : Flag) : String :=
  let letter :=
    match f.letter with
    | some c => String.ofList ['-', c, ',', ' ']
    | none => "    "
  let value :=
    match f.effect with
    | .value name _ => " <" ++ name ++ ">"
    | _ => ""
  letter ++ "--" ++ f.long ++ value

/-- Lines of two columns under a heading; nothing if there are no lines. -/
def table (heading : String) (rows : List (String × String)) : List String :=
  let width := rows.foldl (fun n row => max n row.1.length) 0
  if rows.isEmpty then []
  else
    [heading ++ ":"] ++ rows.map fun (label, about) =>
      "  " ++ label ++ String.ofList (List.replicate (width - label.length + 2) ' ') ++ about

/-- What is to be written after the name of the program. -/
def Form.synopsis (c : Form) : String :=
  let options :=
    if c.flags.any fun f => !(f.effect matches .help | .version) then ["[OPTIONS]"] else []
  " ".intercalate ([programName, c.name] ++ options ++ c.positionals.map (·.label))

/-- A page of sections, one line apart. -/
def pageOf (about synopsis : String) (tables : List (List String)) : String :=
  let sections := [[about], ["Usage: " ++ synopsis]] ++ tables.filter (!·.isEmpty)
  "\n\n".intercalate (sections.map ("\n".intercalate ·)) ++ "\n"

def flagTable (flags : List Flag) : List String :=
  table "Options" (flags.map fun f => (f.label, f.about))

/-- How to use a command. -/
def Form.page (c : Form) : String :=
  pageOf c.about c.synopsis
    [table "Arguments" (c.positionals.map fun p => (p.label, p.about)), flagTable c.flags]

def programSynopsis : String := programName ++ " [OPTIONS] <COMMAND>"

/-- How to use the program. -/
def programPage : String :=
  pageOf programAbout programSynopsis
    [table "Commands" ((workForms ++ [helpForm]).map fun c => (c.name, c.about)),
      flagTable programFlags]

/-- The page that is asked for by the names behind `help`. -/
def pageOf? : List String → Option String
  | [] => some programPage
  | [name] =>
      if name = helpForm.name then some helpForm.page else (form? name).map (·.page)
  | _ => none

end MerkleStore.CommandLine.Usage
