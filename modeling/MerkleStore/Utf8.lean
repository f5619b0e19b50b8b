import MerkleStore.Bytes

/-!
# Bytes as text

The characters a byte string spells in UTF-8. Where it spells none, the longest
start of a character that stands there is shown as one replacement character.
-/

namespace MerkleStore.Utf8

/-- Stands for bytes that spell no character. -/
def replacement : Char := '\ufffd'

/-- The part of a character's number in its first byte, and the bounds of every
byte that follows. -/
def lead? (b : Nat) : Option (Nat × List (Nat × Nat)) :=
  let tail := (0x80, 0xbf)
  if b < 0x80 then some (b, [])
  else if b < 0xc2 then none
  else if b < 0xe0 then some (b % 32, [tail])
  else if b = 0xe0 then some (0, [(0xa0, 0xbf), tail])
  else if b = 0xed then some (13, [(0x80, 0x9f), tail])
  else if b < 0xf0 then some (b % 16, [tail, tail])
  else if b = 0xf0 then some (0, [(0x90, 0xbf), tail, tail])
  else if b < 0xf4 then some (b % 8, [tail, tail, tail])
  else if b = 0xf4 then some (4, [(0x80, 0x8f), tail, tail])
  else none

/-- Goes on with a character; stops at the first byte that is out of bounds. -/
def readTail : Nat → List (Nat × Nat) → Bytes → Option Nat × Bytes
  | n, [], bs => (some n, bs)
  | _, _ :: _, [] => (none, [])
  | n, (low, high) :: bounds, b :: bs =>
      if low ≤ b.toNat ∧ b.toNat ≤ high then readTail (n * 64 + b.toNat % 64) bounds bs
      else (none, b :: bs)

/-- The characters of a byte string. `fuel` bounds their number. -/
def readChars : Nat → Bytes → List Char
  | 0, _ | _, [] => []
  | fuel + 1, b :: bs =>
      match lead? b.toNat with
      | none => replacement :: readChars fuel bs
      | some (n, bounds) =>
        match readTail n bounds bs with
        | (some n, bs) => Char.ofNat n :: readChars fuel bs
        | (none, bs) => replacement :: readChars fuel bs

/-- The text of a byte string. -/
def toText (bs : Bytes) : String := String.ofList (readChars bs.length bs)

/-- The bytes of a text. -/
def ofText (s : String) : Bytes := s.toList.flatMap String.utf8EncodeChar

end MerkleStore.Utf8
