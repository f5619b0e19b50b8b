import MerkleStore.Binary64

/-!
# JSON values

A number without fraction and exponent that fits sixty-four bits, signed or
unsigned, is an integer; every other number, minus zero among them, is a
binary64 number. Members of an object keep their order, and a name may occur
more than once.
-/

namespace MerkleStore.Json

/-- A number. -/
inductive Number
  | integer (n : Int)
  | real (x : Binary64)
deriving DecidableEq

/-- A JSON value. -/
inductive Value
  | null
  | boolean (b : Bool)
  | number (n : Number)
  | text (s : String)
  | array (items : List Value)
  | object (members : List (String × Value))

/-- A whole number that is not negative. -/
def Value.natural (n : Nat) : Value := .number (.integer n)

end MerkleStore.Json
