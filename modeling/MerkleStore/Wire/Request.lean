import MerkleStore.Error
import MerkleStore.Json.Printer
import MerkleStore.Json.Reader
import MerkleStore.Wire.Text

/-!
# Requests

What a client asks. A request is an object whose member `type` says what it is,
or a list that starts with that word and goes on with the fields in their order.
Generations are written as text and read as text or as numbers.
-/

namespace MerkleStore

/-- A question to a server. -/
inductive Request
  /-- The last generation with this root. -/
  | root (tree : TreeId) (node : Hash)
  /-- The subtree under a node. -/
  | nodes (tree : TreeId) (node : Hash)
  /-- The operations that made the generations after `first` up to `last`. -/
  | operations (tree : TreeId) (first last : Nat)
  /-- The end of the conversation. -/
  | close
deriving DecidableEq

namespace Request

open Json Wire

/-- The word for a kind of request. -/
def kind : Request → String
  | root _ _ => "request_root"
  | nodes _ _ => "request_nodes"
  | operations _ _ _ => "request_operations"
  | close => "close"

/-! ### Writing -/

/-- A request as an object. -/
def toJson (r : Request) : Value :=
  let type := ("type", Value.text r.kind)
  match r with
  | root t h | nodes t h => .object [type, ("tree_id", treeValue t), ("node_hash", hashValue h)]
  | operations t first last =>
      .object [type, ("tree_id", treeValue t), ("generation", .text (Decimal.text first)),
        ("max_generation", .text (Decimal.text last))]
  | close => .object [type]

/-- The text of a request. -/
def text (r : Request) : String := r.toJson.compact

/-! ### Reading fields -/

/-- A generation from a number or a text. -/
def generationOf (v : Value) : Except Mismatch Nat :=
  match v.natural?, v with
  | some n, _ => .ok n
  | none, .text s =>
      match Decimal.read wordBound (Decimal.trim s) with
      | .ok n => .ok n
      | .error e => .error (.decimal e)
  | none, _ => .error (.noForm "Repr")

/-- A field that must have been given. -/
def need {α : Type} (name : String) : Option α → Except Mismatch α
  | some a => .ok a
  | none => .error (.missingField name)

/-- Takes a field in, unless it has been given before. -/
def take {α : Type} (name : String) (before : Option α) (read : Value → Except Mismatch α)
    (v : Value) : Except Mismatch (Option α) :=
  match before with
  | some _ => .error (.duplicateField name)
  | none => (read v).map some

/-- A tree id and a hash among members in any order. -/
def nodeFields : Option TreeId → Option Hash → List (String × Value) →
    Except Mismatch (TreeId × Hash)
  | tree, node, [] => do return (← need "tree_id" tree, ← need "node_hash" node)
  | tree, node, (name, v) :: members => do
      if name = "tree_id" then nodeFields (← take name tree treeOf v) node members
      else if name = "node_hash" then nodeFields tree (← take name node hashOf v) members
      else nodeFields tree node members

/-- A tree id and two generations among members in any order. -/
def rangeFields : Option TreeId → Option Nat → Option Nat → List (String × Value) →
    Except Mismatch (TreeId × Nat × Nat)
  | tree, first, last, [] => do
      return (← need "tree_id" tree, ← need "generation" first, ← need "max_generation" last)
  | tree, first, last, (name, v) :: members => do
      if name = "tree_id" then rangeFields (← take name tree treeOf v) first last members
      else if name = "generation" then
        rangeFields tree (← take name first generationOf v) last members
      else if name = "max_generation" then
        rangeFields tree first (← take name last generationOf v) members
      else rangeFields tree first last members

/-- Nothing may follow the fields of a list. -/
def expectNoMore (count : Nat) (rest : List Value) : Except Mismatch Unit :=
  if rest.isEmpty then .ok ()
  else
    .error (.wrongLength (count + rest.length) (toString count ++ " elements in sequence"))

/-- A tree id and a hash in this order. -/
def nodeItems (variant : String) : List Value → Except Mismatch (TreeId × Hash)
  | [] => .error (.wrongLength 0 (variant ++ " with 2 elements"))
  | [tree] => do
      let _ ← treeOf tree
      throw (.wrongLength 1 (variant ++ " with 2 elements"))
  | tree :: node :: rest => do
      let fields := (← treeOf tree, ← hashOf node)
      expectNoMore 2 rest
      return fields

/-- A tree id and two generations in this order. -/
def rangeItems (variant : String) : List Value → Except Mismatch (TreeId × Nat × Nat)
  | [] => .error (.wrongLength 0 (variant ++ " with 3 elements"))
  | [tree] => do
      let _ ← treeOf tree
      throw (.wrongLength 1 (variant ++ " with 3 elements"))
  | [tree, first] => do
      let _ ← treeOf tree
      let _ ← generationOf first
      throw (.wrongLength 2 (variant ++ " with 3 elements"))
  | tree :: first :: last :: rest => do
      let fields := (← treeOf tree, ← generationOf first, ← generationOf last)
      expectNoMore 3 rest
      return fields

/-! ### Reading requests -/

/-- The words for the kinds of request. -/
def kinds : List String := ["request_root", "request_nodes", "request_operations", "close"]

/-- The kind a value names. -/
def kindOf : Value → Except Mismatch String
  | .text s => if s ∈ kinds then .ok s else .error (.unknownVariant s kinds)
  | v => .error (.wrongType v.found "variant identifier")

/-- The kind of a request and its other members or elements. -/
def splitKind : Value → Except Mismatch (String × (List (String × Value) ⊕ List Value))
  | .object members => do
      match members.filter (·.1 == "type") with
      | [] => throw (.missingField "type")
      | (_, v) :: others =>
        let kind ← kindOf v
        if others.isEmpty then return (kind, .inl (members.filter (·.1 != "type")))
        throw (.duplicateField "type")
  | .array [] => .error (.missingField "type")
  | .array (v :: items) => do return (← kindOf v, .inr items)
  | v => .error (.wrongType v.found "internally tagged enum Request")

/-- A request of a known kind. -/
def ofFields (kind : String) (fields : List (String × Value) ⊕ List Value) :
    Except Mismatch Request := do
  match kind, fields with
  | "request_root", .inl members => do
      let (t, h) ← nodeFields none none members
      return .root t h
  | "request_root", .inr items => do
      let (t, h) ← nodeItems "struct variant Request::RequestRoot" items
      return .root t h
  | "request_nodes", .inl members => do
      let (t, h) ← nodeFields none none members
      return .nodes t h
  | "request_nodes", .inr items => do
      let (t, h) ← nodeItems "struct variant Request::RequestNodes" items
      return .nodes t h
  | "request_operations", .inl members => do
      let (t, first, last) ← rangeFields none none none members
      return .operations t first last
  | "request_operations", .inr items => do
      let (t, first, last) ← rangeItems "struct variant Request::RequestOperations" items
      return .operations t first last
  | _, .inl _ => return .close
  | _, .inr items => do
      expectNoMore 0 items
      return .close

/-- A request in front of other characters. What is wrong with its kind has a place
in the text; what is wrong with its fields has none. -/
def read (cs : List Char) : Except Fault (Request × List Char) := do
  let (v, rest) ← readValue depthLimit cs
  let (kind, fields) ←
    match splitKind v with
    | .ok split => pure split
    | .error m => throw (.here (.mismatch m) rest)
  match ofFields kind fields with
  | .ok r => return (r, rest)
  | .error m => throw (.ofMismatch m rest)

/-- The request a text holds. -/
def parse (text : String) : Except Error Request :=
  (parseWith read text).mapError fun e => .protocol (.malformedRequest e)

end Request

end MerkleStore
