/-!
# Bytes

Byte strings are lists of bytes, so that every function on them is plain list
recursion. This module adds the fixed shapes the store is built from:

* numbers of a fixed width, least significant byte first
  (`littleEndian`, `ofLittleEndian`);
* pieces of a fixed size (`pieces`);
* strings of exactly thirty-two bytes (`Bytes32`), ordered byte by byte.
-/

namespace MerkleStore

/-- A byte string. -/
abbrev Bytes := List UInt8

/-- The lowest `width` bytes of a number, least significant first. -/
def littleEndian : Nat → Nat → Bytes
  | 0, _ => []
  | width + 1, n => UInt8.ofNat (n % 256) :: littleEndian width (n / 256)

/-- The number a byte string spells, least significant byte first. -/
def ofLittleEndian : Bytes → Nat
  | [] => 0
  | b :: bs => b.toNat + 256 * ofLittleEndian bs

@[simp] theorem length_littleEndian (width n : Nat) :
    (littleEndian width n).length = width := by
  induction width generalizing n with
  | zero => rfl
  | succ width ih => simp [littleEndian, ih]

/-- A number that fits its width is read back. -/
theorem ofLittleEndian_littleEndian {width n : Nat} (h : n < Nat.pow 256 width) :
    ofLittleEndian (littleEndian width n) = n := by
  induction width generalizing n with
  | zero =>
      obtain rfl : n = 0 := Nat.lt_one_iff.mp h
      rfl
  | succ width ih =>
      have hdiv : n / 256 < Nat.pow 256 width := by
        apply Nat.div_lt_of_lt_mul
        rw [Nat.mul_comm]
        exact h
      have hbyte : (UInt8.ofNat (n % 256)).toNat = n % 256 := by
        simp [UInt8.toNat_ofNat']
      simp only [littleEndian, ofLittleEndian, ih hdiv, hbyte]
      omega

/-- A byte string spells a number below the bound of its width. -/
theorem ofLittleEndian_lt (bs : Bytes) : ofLittleEndian bs < Nat.pow 256 bs.length := by
  induction bs with
  | nil => exact Nat.zero_lt_one
  | cons b bs ih =>
      have hb : b.toNat < 256 := b.toNat_lt
      show b.toNat + 256 * ofLittleEndian bs < Nat.pow 256 bs.length * 256
      omega

/-- Pieces of `size` bytes, the last one shorter or as long; at least one piece.
`fuel` bounds the number of pieces, and the length of the string is enough. -/
def pieces (size : Nat) : Nat → Bytes → List Bytes
  | 0, bs => [bs]
  | fuel + 1, bs =>
      match bs.drop size with
      | [] => [bs]
      | rest => bs.take size :: pieces size fuel rest

theorem pieces_succ (size fuel : Nat) (bs : Bytes) :
    pieces size (fuel + 1) bs =
      if bs.length ≤ size then [bs] else bs.take size :: pieces size fuel (bs.drop size) := by
  rw [pieces]
  split
  · next h => rw [if_pos (List.drop_eq_nil_iff.mp h)]
  · next h => rw [if_neg fun hle => h (List.drop_eq_nil_of_le hle)]

/-- Nothing is lost in pieces. -/
theorem flatten_pieces (size fuel : Nat) (bs : Bytes) :
    (pieces size fuel bs).flatten = bs := by
  induction fuel generalizing bs with
  | zero => simp [pieces]
  | succ fuel ih =>
      rw [pieces_succ]
      split
      · simp
      · simp [ih]

/-- Exactly thirty-two bytes. -/
structure Bytes32 where
  toList : Bytes
  length_eq : toList.length = 32
deriving DecidableEq

namespace Bytes32

/-- The byte string as thirty-two bytes, if it has that length. -/
def ofList? (bs : Bytes) : Option Bytes32 :=
  if h : bs.length = 32 then some ⟨bs, h⟩ else none

/-- One byte, thirty-two times. -/
def replicate (b : UInt8) : Bytes32 := ⟨List.replicate 32 b, by simp⟩

instance : Inhabited Bytes32 := ⟨replicate 0⟩

@[ext] theorem ext {a b : Bytes32} (h : a.toList = b.toList) : a = b := by
  cases a; cases b; cases h; rfl

@[simp] theorem ofList?_toList (b : Bytes32) : ofList? b.toList = some b := by
  simp [ofList?, b.length_eq]

/-- Byte by byte, the first difference decides. -/
instance : Ord Bytes32 := ⟨fun a b => compare a.toList b.toList⟩

theorem compare_def (a b : Bytes32) : compare a b = compare a.toList b.toList := rfl

instance : Std.TransOrd Bytes32 where
  eq_swap {a b} := by
    simpa only [compare_def] using @Std.OrientedCmp.eq_swap _ compare _ a.toList b.toList
  isLE_trans {a b c} hab hbc := by
    simp only [compare_def] at *
    exact Std.TransCmp.isLE_trans hab hbc

instance : Std.LawfulEqOrd Bytes32 where
  compare_self := Std.ReflCmp.compare_self
  eq_of_compare {a b} h := by
    rw [compare_def] at h
    exact ext (Std.LawfulEqCmp.eq_of_compare h)

end Bytes32

end MerkleStore
