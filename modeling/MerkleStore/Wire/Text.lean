import MerkleStore.Hash
import MerkleStore.Json.Decode
import MerkleStore.Node
import MerkleStore.Root

/-!
# Values on the wire

How single values travel: hashes, tree ids, keys and values as hexadecimal text,
with or without `0x` in front, statuses and sides by name, and `"None"` where an
optional value is absent.
-/

namespace MerkleStore.Wire

open Json

/-- The text of an absent value. -/
def absent : String := "None"

def hashValue (h : Hash) : Value := .text h.hex

def treeValue (t : TreeId) : Value := .text t.hex

def bytesValue (bs : Bytes) : Value := .text (Hex.encode bs)

/-- An optional value as a text. -/
def optionalValue {α : Type} (show_ : α → String) : Option α → Value
  | some a => .text (show_ a)
  | none => .text absent

/-- A tree id from its text. -/
def treeOf (v : Value) : Except Mismatch TreeId := do
  match TreeId.ofHex (← v.asText) with
  | .ok t => return t
  | .error e => throw (.hex e)

/-- A hash from its text. -/
def hashOf (v : Value) : Except Mismatch Hash := do
  match Hash.ofHex (← v.asText) with
  | .ok h => return h
  | .error e => throw (.hex e)

/-- A byte string from its text. -/
def bytesOf? (v : Value) : Option Bytes := do
  let s ← v.text?
  (Hex.decode (Hex.dropMarker s.toList)).toOption

/-- An optional value from its text. -/
def optionalOf? {α : Type} (read : String → Option α) (v : Value) : Option (Option α) := do
  let s ← v.text?
  if s = absent then some none else (read s).map some

/-- A side from its name. -/
def sideOf? (s : String) : Option Side := (Side.ofName s).toOption

/-- A status from its name. -/
def statusOf? (v : Value) : Option Status := v.text?.bind Status.ofName?

end MerkleStore.Wire
