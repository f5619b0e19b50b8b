import MerkleStore.Error
import MerkleStore.Json.Fields
import MerkleStore.Json.Printer
import MerkleStore.Operation
import MerkleStore.Wire.Text

/-!
# Replies

What a server replies: a root or that there is none, the nodes of a subtree without
their hashes, or a list of operations. An entry has the form of one of several
kinds of object, and the first kind whose fields fit is taken; the hashes of
nodes are computed again from what they hold.
-/

namespace MerkleStore.Wire

open Json

/-- A value that fits a form, in front of other characters. -/
def readForm {α : Type} (type : String) (form? : Value → Option α) (depth : Nat)
    (cs : List Char) : Except Fault (α × List Char) := do
  let (v, rest) ← readValue depth cs
  match form? v with
  | some a => return (a, rest)
  | none => throw (.ofMismatch (.noForm type) rest)

/-- The value of the one member of this name, read as it should be. -/
def field? {α : Type} (members : List (String × Value)) (name : String)
    (read : Value → Option α) : Option α := do
  read (← Value.only? members name)

/-! ### Roots -/

/-- The answer to a question for a root. -/
inductive RootReply
  | known (tree : TreeId) (generation : Nat) (node : Hash) (status : Status)
  | unknown
deriving DecidableEq

namespace RootReply

/-- Only a root of a tree that is not empty can be told. -/
def ofRoot : Option Root → RootReply
  | some ⟨t, g, some h, s⟩ => known t g h s
  | _ => unknown

def toRoot? : RootReply → Option Root
  | known t g h s => some ⟨t, g, some h, s⟩
  | unknown => none

def toJson : RootReply → Value
  | known t g h s =>
      .object [("tree_id", treeValue t), ("generation", .natural g), ("node_hash", hashValue h),
        ("status", .text s.name)]
  | unknown => .object []

def text (a : RootReply) : String := a.toJson.compact

/-- A root whose four fields fit; any other object says that there is none. -/
def ofJson? (v : Value) : Option RootReply := do
  let members ← v.members?
  let known? : Option RootReply := do
    let t ← field? members "tree_id" fun v => (treeOf v).toOption
    let g ← field? members "generation" Value.natural?
    let h ← field? members "node_hash" fun v => (hashOf v).toOption
    let s ← field? members "status" statusOf?
    return known t g h s
  return known?.getD unknown

def parse (text : String) : Except Error RootReply :=
  (parseWith (readForm "RootAnswer" ofJson? depthLimit) text).mapError .json

end RootReply

/-! ### Nodes -/

/-- One node of a subtree. -/
inductive NodeItem
  | terminal (key value : Bytes) (isTerminal : Bool)
  | internal (left right : Hash) (isTerminal : Bool)
deriving DecidableEq

namespace NodeItem

def ofNode : Node → NodeItem
  | .terminal n => terminal n.key n.value true
  | .internal n => internal n.left n.right false

/-- The node with its hash computed from what it holds. -/
def toNode : NodeItem → Except Error Node
  | terminal key value true => .ok (.terminal (.ofPair key value))
  | internal left right false => .ok (.internal (.ofPair left right))
  | _ => .error (.protocol .nodeFlag)

def toJson : NodeItem → Value
  | terminal key value isTerminal =>
      .object [("key", bytesValue key), ("value", bytesValue value),
        ("is_terminal", .boolean isTerminal)]
  | internal left right isTerminal =>
      .object [("left", hashValue left), ("right", hashValue right),
        ("is_terminal", .boolean isTerminal)]

def text (e : NodeItem) : String := e.toJson.compact

def ofJson? (v : Value) : Option NodeItem := do
  let members ← v.members?
  let terminal? : Option NodeItem := do
    let key ← field? members "key" bytesOf?
    let value ← field? members "value" bytesOf?
    return terminal key value (← field? members "is_terminal" Value.boolean?)
  let internal? : Option NodeItem := do
    let left ← field? members "left" fun v => (hashOf v).toOption
    let right ← field? members "right" fun v => (hashOf v).toOption
    return internal left right (← field? members "is_terminal" Value.boolean?)
  terminal? <|> internal?

def parse (text : String) : Except Error NodeItem :=
  (parseWith (readForm "NodeEntry" ofJson? depthLimit) text).mapError .json

end NodeItem

/-- The answer to a question for a subtree. -/
structure NodesReply where
  entries : List NodeItem
deriving DecidableEq

namespace NodesReply

/-- The answer without nodes. -/
def empty : NodesReply := ⟨[]⟩

def toJson (a : NodesReply) : Value :=
  .object [("answer", .array (a.entries.map NodeItem.toJson))]

def text (a : NodesReply) : String := a.toJson.compact

/-- An object with a list of entries, or a list of that list. -/
def shape : Shape (Option (List NodeItem)) NodesReply where
  name := "struct NodesAnswer"
  fields :=
    [{ name := "answer"
       isSet := Option.isSome
       read := fun depth _ cs => do
         let (es, cs) ← readList (readForm "NodeEntry" NodeItem.ofJson?) depth cs
         return (some es, cs) }]
  start := none
  build := fun entries => (required "answer" entries).map NodesReply.mk

def parse (text : String) : Except Error NodesReply :=
  (parseWith (shape.read depthLimit) text).mapError .json

end NodesReply

/-! ### Operations -/

/-- One operation, with the code of its status. -/
inductive OperationItem
  | insertion (isInsertion : Bool) (root : Hash) (key value : Bytes) (reference : Option Hash)
      (side : Option Side) (status : Nat)
  | deletion (isInsertion : Bool) (root : Option Hash) (key : Bytes) (status : Nat)
deriving DecidableEq

namespace OperationItem

def ofOperation : Operation → OperationItem
  | .insertion d => insertion true d.root d.key d.value d.reference d.side d.status.code
  | .deletion d => deletion false d.root d.key d.status.code

/-- The status with a code. -/
def statusOf (code : Nat) : Except Error Status :=
  match Status.ofCode? code with
  | some s => .ok s
  | none => .error (.protocol (.statusCode code))

def toOperation : OperationItem → Except Error Operation
  | insertion true root key value reference side status => do
      return .insertion ⟨root, key, value, reference, side, ← statusOf status⟩
  | deletion false root key status => do
      return .deletion ⟨root, key, ← statusOf status⟩
  | _ => .error (.protocol .operationFlag)

def toJson : OperationItem → Value
  | insertion isInsertion root key value reference side status =>
      .object [("is_insert", .boolean isInsertion), ("hash", hashValue root),
        ("key", bytesValue key), ("value", bytesValue value),
        ("reference_node_hash", optionalValue Hash.hex reference),
        ("side", optionalValue Side.name side), ("root_status", .natural status)]
  | deletion isInsertion root key status =>
      .object [("is_insert", .boolean isInsertion), ("hash", optionalValue Hash.hex root),
        ("key", bytesValue key), ("root_status", .natural status)]

def text (e : OperationItem) : String := e.toJson.compact

/-- A number of one byte. -/
def code? (v : Value) : Option Nat := do
  let n ← v.natural?
  if n < 256 then some n else none

def ofJson? (v : Value) : Option OperationItem := do
  let members ← v.members?
  let isInsertion ← field? members "is_insert" Value.boolean?
  let key ← field? members "key" bytesOf?
  let status ← field? members "root_status" code?
  let insertion? : Option OperationItem := do
    let root ← field? members "hash" fun v => (hashOf v).toOption
    let value ← field? members "value" bytesOf?
    let reference ←
      field? members "reference_node_hash" (optionalOf? fun s => (Hash.ofHex s).toOption)
    let side ← field? members "side" (optionalOf? sideOf?)
    return insertion isInsertion root key value reference side status
  let deletion? : Option OperationItem := do
    let root ← field? members "hash" (optionalOf? fun s => (Hash.ofHex s).toOption)
    return deletion isInsertion root key status
  insertion? <|> deletion?

def parse (text : String) : Except Error OperationItem :=
  (parseWith (readForm "OperationEntry" ofJson? depthLimit) text).mapError .json

/-- A list of entries. -/
def parseList (text : String) : Except Error (List OperationItem) :=
  (parseWith (readList (readForm "OperationEntry" ofJson?) depthLimit) text).mapError .json

/-- The text of a list of entries. -/
def listText (es : List OperationItem) : String := (Value.array (es.map toJson)).compact

end OperationItem

end MerkleStore.Wire
