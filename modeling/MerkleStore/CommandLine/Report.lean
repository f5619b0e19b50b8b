import MerkleStore.Json.Printer
import MerkleStore.Store.Diff
import MerkleStore.CommandLine.Arguments
import MerkleStore.Utf8

/-!
# Reports

What a command says: a JSON document on the standard output, or the chain of
causes of a failure on the standard error. Keys and values are shown in
hexadecimal or as text.
-/

namespace MerkleStore.CommandLine

open Json

/-- What a run of the program leaves behind. -/
structure Outcome where
  code : Nat
  stdout : String
  stderr : String
deriving DecidableEq

/-- Why a command failed. -/
inductive Failure
  | store (error : Error)
  /-- The database cannot be opened. -/
  | database (path : String) (error : Error)
  /-- The directories above the database cannot be made. -/
  | directories (error : FileError)
  | treeId (text : String)
  | hash (text : String)
  | hex (text : String) (error : Hex.Error)
  | side (text : String)
deriving DecidableEq

/-- The messages of a failure, each with its cause behind it. -/
def Failure.messages : Failure → List String
  | store e => e.message :: e.reason?.toList
  | database path e =>
      ("Failed to open database at " ++ path) :: e.message :: e.reason?.toList
  | directories e => [e.message]
  | treeId s => ["Invalid tree id: " ++ s]
  | hash s => ["Invalid hash: " ++ s]
  | hex s e => ["Invalid hex: " ++ s, e.message]
  | side s => ["invalid side: " ++ s]

/-- The causes of a failure, numbered if there are several. -/
def causeLines : List String → String
  | [] => ""
  | [cause] => "\n\nCaused by:\n    " ++ cause
  | causes =>
      "\n\nCaused by:" ++
        String.join (causes.zipIdx.map fun (cause, i) =>
          "\n    " ++ toString i ++ ": " ++ cause)

/-- A failure as it is reported. -/
def Failure.outcome (f : Failure) : Outcome :=
  match f.messages with
  | [] => ⟨1, "", ""⟩
  | message :: causes => ⟨1, "", "Error: " ++ message ++ causeLines causes ++ "\n"⟩

/-- A document as it is written. -/
def document (format : Format) (v : Value) : String :=
  (match format with
    | .json => v.compact
    | .text => v.pretty) ++ "\n"

/-! ### Documents -/

/-- A key or value as it is shown. -/
def showBytes (hex : Bool) (bs : Bytes) : Value :=
  .text (if hex then Hex.encode bs else Utf8.toText bs)

/-- A hash, or nothing for the empty tree. -/
def optionalHash : Option Hash → Value
  | some h => .text h.hex
  | none => .null

def rootDocument (r : Root) : Value :=
  .sorted [("tree_id", .text r.tree.hex), ("generation", .natural r.generation),
    ("node_hash", optionalHash r.node), ("status", .text r.status.name)]

def terminalDocument (hex : Bool) (n : Terminal) : Value :=
  .sorted [("key", showBytes hex n.key), ("value", showBytes hex n.value),
    ("hash", .text n.hash.hex)]

def internalDocument (n : Internal) : Value :=
  .sorted [("hash", .text n.hash.hex), ("left", .text n.left.hex), ("right", .text n.right.hex)]

/-- An operation with the generation it made. -/
def operationDocument (hex : Bool) (generation : Nat) : Operation → Value
  | .insertion d =>
      .sorted [("generation", .natural generation), ("type", .text "insert"),
        ("key", showBytes hex d.key), ("value", showBytes hex d.value),
        ("reference_node_hash", optionalHash d.reference),
        ("side", (d.side.map fun s => Value.text s.name).getD .null),
        ("root_hash", .text d.root.hex), ("root_status", .text d.status.name)]
  | .deletion d =>
      .sorted [("generation", .natural generation), ("type", .text "delete"),
        ("key", showBytes hex d.key), ("root_hash", optionalHash d.root),
        ("root_status", .text d.status.name)]

def changeDocument (hex : Bool) : Change → Value
  | .added n =>
      .sorted [("type", .text "added"), ("key", showBytes hex n.key),
        ("value", showBytes hex n.value)]
  | .removed n =>
      .sorted [("type", .text "removed"), ("key", showBytes hex n.key),
        ("value", showBytes hex n.value)]
  | .modified old new =>
      .sorted [("type", .text "modified"), ("key", showBytes hex new.key),
        ("old_value", showBytes hex old.value), ("new_value", showBytes hex new.value)]

/-- Several documents under a name, with their number. -/
def listDocument (name : String) (items : List Value) : Value :=
  .sorted [("count", .natural items.length), (name, .array items)]

/-- Something went well. -/
def okDocument (members : List (String × Value)) : Value :=
  .sorted (("status", .text "ok") :: members)

/-- Something was not as it should be. -/
def errorDocument (message : String) : Value :=
  .sorted [("status", .text "error"), ("message", .text message)]

end MerkleStore.CommandLine
