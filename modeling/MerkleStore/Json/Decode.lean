import MerkleStore.Json.Error

/-!
# Taking values apart

What a value that has already been read holds, with the mismatch where it has
another shape.
-/

namespace MerkleStore.Json.Value

/-- The text a value is. -/
def asText : Value → Except Mismatch String
  | text s => .ok s
  | v => .error (.wrongType v.found "a string")

/-- The whole number a value is, if it is not negative. -/
def natural? : Value → Option Nat
  | number (.integer (.ofNat n)) => some n
  | _ => none

def boolean? : Value → Option Bool
  | boolean b => some b
  | _ => none

def text? : Value → Option String
  | text s => some s
  | _ => none

/-- The members of an object. -/
def members? : Value → Option (List (String × Value))
  | object members => some members
  | _ => none

/-- The value of the one member of this name. -/
def only? (members : List (String × Value)) (name : String) : Option Value :=
  match members.filter (·.1 == name) with
  | [(_, v)] => some v
  | _ => none

end MerkleStore.Json.Value
