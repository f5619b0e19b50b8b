import MerkleStore.Bytes
import MerkleStore.Unprintable

/-!
# Hexadecimal text

Two lower-case digits a byte when written; either case when read. A text may
start with one `0x`, which readers that allow it drop first (`dropMarker`).

Reading refuses a text in a fixed order of causes: first an odd number of
digits, then (where the length is fixed) a wrong length, then the first
character that is no digit. Lengths and positions are counted in bytes of
UTF-8, and a character outside ASCII is reported by its first byte.
-/

namespace MerkleStore.Hex

/-- Why a text is no hexadecimal byte string. -/
inductive Error
  | oddLength
  | wrongLength
  | invalidCharacter (byte : UInt8) (position : Nat)
deriving DecidableEq

/-- A byte of text as it is quoted in a message. -/
def quoteByte (b : UInt8) : String :=
  let escaped (s : String) : String := "'\\" ++ s ++ "'"
  if b = 0 then escaped "0"
  else if b = 9 then escaped "t"
  else if b = 10 then escaped "n"
  else if b = 13 then escaped "r"
  else if b = 39 then escaped "'"
  else if b = 92 then escaped "\\"
  else if Unprintable.contains (Char.ofNat b.toNat) then
    escaped ("u\x7b" ++ String.ofList (Nat.toDigits 16 b.toNat) ++ "\x7d")
  else "'" ++ String.singleton (Char.ofNat b.toNat) ++ "'"

def Error.message : Error → String
  | .oddLength => "Odd number of digits"
  | .wrongLength => "Invalid string length"
  | .invalidCharacter b position =>
      "Invalid character " ++ quoteByte b ++ " at position " ++ toString position

/-- The digit of a number below sixteen. -/
def digit (n : Nat) : Char :=
  if n < 10 then Char.ofNat (48 + n) else Char.ofNat (87 + n)

/-- The value of a digit, in either case. -/
def digitValue? (c : Char) : Option Nat :=
  let n := c.toNat
  if 48 ≤ n ∧ n ≤ 57 then some (n - 48)
  else if 65 ≤ n ∧ n ≤ 70 then some (n - 55)
  else if 97 ≤ n ∧ n ≤ 102 then some (n - 87)
  else none

/-- The digits of a byte string, high half of each byte first. -/
def digits : Bytes → List Char
  | [] => []
  | b :: bs => digit (b.toNat / 16) :: digit (b.toNat % 16) :: digits bs

/-- A byte string in hexadecimal. -/
def encode (bs : Bytes) : String := String.ofList (digits bs)

/-- The number of bytes a text takes in UTF-8. -/
def utf8Length (cs : List Char) : Nat := cs.foldl (fun n c => n + c.utf8Size) 0

/-- The first byte of a character in UTF-8. -/
def leadByte (c : Char) : UInt8 := (String.utf8EncodeChar c).headD 0

/-- The bytes that pairs of digits spell; `position` counts the characters before. -/
def ofDigits : Nat → List Char → Except Error Bytes
  | position, hi :: lo :: cs =>
      match digitValue? hi with
      | none => .error (.invalidCharacter (leadByte hi) position)
      | some h =>
        match digitValue? lo with
        | none => .error (.invalidCharacter (leadByte lo) (position + 1))
        | some l =>
          match ofDigits (position + 2) cs with
          | .error e => .error e
          | .ok bs => .ok (UInt8.ofNat (16 * h + l) :: bs)
  | position, [c] =>
      match digitValue? c with
      | none => .error (.invalidCharacter (leadByte c) position)
      | some _ => .error .oddLength
  | _, [] => .ok []

/-- The bytes a text of any length spells. -/
def decode (cs : List Char) : Except Error Bytes :=
  if utf8Length cs % 2 = 1 then .error .oddLength else ofDigits 0 cs

/-- The thirty-two bytes a text spells. -/
def decode32 (cs : List Char) : Except Error Bytes32 :=
  if utf8Length cs % 2 = 1 then .error .oddLength
  else if utf8Length cs ≠ 64 then .error .wrongLength
  else
    match ofDigits 0 cs with
    | .error e => .error e
    | .ok bs =>
      match Bytes32.ofList? bs with
      | some b => .ok b
      | none => .error .wrongLength

/-- The text after a leading `0x`, if it has one. -/
def dropMarker : List Char → List Char
  | '0' :: 'x' :: cs => cs
  | cs => cs

/-! ### Digits -/

theorem digitValue?_digit {n : Nat} (h : n < 16) : digitValue? (digit n) = some n := by
  rcases n with _ | _ | _ | _ | _ | _ | _ | _ | _ | _ | _ | _ | _ | _ | _ | _ | n
  all_goals first | rfl | omega

@[simp] theorem length_digits (bs : Bytes) : (digits bs).length = 2 * bs.length := by
  induction bs with
  | nil => rfl
  | cons b bs ih => simp only [digits, List.length_cons, ih]; omega

end MerkleStore.Hex
