import MerkleStore.Bytes

/-!
# Decimal numbers

Whole numbers below a bound, as digits that may follow a plus sign. A text is
read from the left, and the first thing wrong with it is what is reported: a
character that is no digit, or a digit that carries the number past its bound.
-/

namespace MerkleStore.Decimal

/-- Why a text is no number. -/
inductive Error
  | empty
  | invalidDigit
  | tooLarge
deriving DecidableEq

def Error.message : Error → String
  | .empty => "cannot parse integer from empty string"
  | .invalidDigit => "invalid digit found in string"
  | .tooLarge => "number too large to fit in target type"

/-- The value of a digit. -/
def digitValue? (c : Char) : Option Nat :=
  let n := c.toNat
  if 48 ≤ n ∧ n ≤ 57 then some (n - 48) else none

/-- Goes on with the digits of a number that has reached `n`. -/
def readDigits (bound : Nat) : Nat → List Char → Except Error Nat
  | n, [] => .ok n
  | n, c :: cs =>
      match digitValue? c with
      | none => .error .invalidDigit
      | some d =>
        if bound ≤ 10 * n + d then .error .tooLarge else readDigits bound (10 * n + d) cs

/-- The number below `bound` that a text spells. -/
def read (bound : Nat) (text : String) : Except Error Nat :=
  match text.toList with
  | [] => .error .empty
  | ['+'] => .error .invalidDigit
  | '+' :: cs => readDigits bound 0 cs
  | cs => readDigits bound 0 cs

/-- The digits of a number. -/
def text (n : Nat) : String := String.ofList (Nat.toDigits 10 n)

/-! ### Blank space around a number -/

/-- The characters that Unicode counts as white space. -/
def isBlank (c : Char) : Bool :=
  let n := c.toNat
  (9 ≤ n && n ≤ 13) || n == 0x20 || n == 0x85 || n == 0xa0 || n == 0x1680 ||
    (0x2000 ≤ n && n ≤ 0x200a) || n == 0x2028 || n == 0x2029 || n == 0x202f ||
    n == 0x205f || n == 0x3000

/-- A text without the blank space at both of its ends. -/
def trim (text : String) : String :=
  let front := text.toList.dropWhile isBlank
  String.ofList (front.reverse.dropWhile isBlank).reverse

end MerkleStore.Decimal
