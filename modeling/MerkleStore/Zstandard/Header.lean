import MerkleStore.Zstandard.Basic

/-!
# Headers

What a frame says about itself before its blocks: how much content there is, how
much of it has to be kept in memory, and what else is needed to read it.
-/

namespace MerkleStore.Zstandard

/-- What a frame says about itself. -/
structure Header where
  /-- The length of the whole content, where it is given. -/
  contentSize : Option Nat
  /-- How far back a block may refer. -/
  window : Nat
  /-- The number of the dictionary, zero for none. -/
  dictionary : Nat
  hasChecksum : Bool

/-- The window size a descriptor byte stands for, of at most `maxLog` bits. -/
def windowOf (maxLog descriptor : Nat) : Except Error Nat :=
  let log := descriptor / 8 + 10
  if maxLog < log then .error .windowTooLarge
  else .ok (Nat.pow 2 log + Nat.pow 2 log / 8 * (descriptor % 8))

/-- The number of bytes the content size takes. -/
def contentSizeWidth (sizeFlag : Nat) (isSingle : Bool) : Nat :=
  match sizeFlag with
  | 0 => if isSingle then 1 else 0
  | 1 => 2
  | 2 => 4
  | _ => 8

/-- The number of bytes a dictionary number takes. -/
def dictionaryWidth : Nat → Nat
  | 0 => 0
  | 1 => 1
  | 2 => 2
  | _ => 4

/-- Reads a header. It is looked at when all its bytes are there. -/
def Header.read (maxLog : Nat) (bs : Bytes) : Except Error (Header × Bytes) := do
  let (first, bs) ← splitExactly 1 bs
  let descriptor := ofLittleEndian first
  let isSingle := descriptor / 32 % 2 = 1
  let sizeWidth := contentSizeWidth (descriptor / 64) isSingle
  let (windowByte, bs) ← splitExactly (if isSingle then 0 else 1) bs
  let (dictionary, bs) ← splitExactly (dictionaryWidth (descriptor % 4)) bs
  let (size, bs) ← splitExactly sizeWidth bs
  if descriptor / 8 % 2 = 1 then throw .unsupported
  let contentSize :=
    if sizeWidth = 0 then none
    else some (ofLittleEndian size + if sizeWidth = 2 then 256 else 0)
  let window ←
    if isSingle then pure (contentSize.getD 0)
    else windowOf maxLog (ofLittleEndian windowByte)
  return (⟨contentSize, window, ofLittleEndian dictionary, descriptor / 4 % 2 = 1⟩, bs)

namespace Header

/-- The largest block of a frame. -/
def maxBlock (h : Header) : Nat := min h.window blockLimit

/-- Whether a content has the announced length. -/
def isMet (h : Header) (length : Nat) : Bool := h.contentSize.all (· == length)

end Header

end MerkleStore.Zstandard
