import MerkleStore.Bytes

/-!
# BLAKE3: the compression function

The state of sixteen words is kept as four rows of four. A round mixes the
four columns at once, turns the rows so that the diagonals become columns,
mixes again and turns back; seven rounds, with the message words permuted in
between, compress one block of at most sixty-four bytes into a chaining value.
-/

namespace MerkleStore.Blake3

/-- Four words. -/
structure Row where
  w0 : UInt32
  w1 : UInt32
  w2 : UInt32
  w3 : UInt32
deriving DecidableEq

namespace Row

/-- Word by word. -/
@[inline] def zipWith (f : UInt32 → UInt32 → UInt32) (r s : Row) : Row :=
  ⟨f r.w0 s.w0, f r.w1 s.w1, f r.w2 s.w2, f r.w3 s.w3⟩

@[inline] def add : Row → Row → Row := zipWith (· + ·)

@[inline] def xor : Row → Row → Row := zipWith (· ^^^ ·)

/-- Every word turned right by `k` bits, `0 < k < 32`. -/
@[inline] def turnBits (k : UInt32) (r : Row) : Row :=
  let turn (x : UInt32) : UInt32 := (x >>> k) ||| (x <<< (32 - k))
  ⟨turn r.w0, turn r.w1, turn r.w2, turn r.w3⟩

/-- The words moved one place to the left. -/
@[inline] def turn (r : Row) : Row := ⟨r.w1, r.w2, r.w3, r.w0⟩

/-- The sixteen bytes of a row, each word least significant byte first. -/
def bytes (r : Row) : Bytes :=
  littleEndian 4 r.w0.toNat ++ littleEndian 4 r.w1.toNat ++
    littleEndian 4 r.w2.toNat ++ littleEndian 4 r.w3.toNat

@[simp] theorem length_bytes (r : Row) : r.bytes.length = 16 := by simp [bytes]

end Row

/-- The words of one block. -/
structure Message where
  r0 : Row
  r1 : Row
  r2 : Row
  r3 : Row

/-- The words of a byte string, four bytes a word. -/
def words : Bytes → List UInt32
  | b0 :: b1 :: b2 :: b3 :: bs => UInt32.ofNat (ofLittleEndian [b0, b1, b2, b3]) :: words bs
  | _ => []

/-- A block, filled up with zeros, as words. -/
def Message.ofBlock (block : Bytes) : Message :=
  match words (block ++ List.replicate (64 - block.length) 0) with
  | [m0, m1, m2, m3, m4, m5, m6, m7, m8, m9, m10, m11, m12, m13, m14, m15] =>
      ⟨⟨m0, m1, m2, m3⟩, ⟨m4, m5, m6, m7⟩, ⟨m8, m9, m10, m11⟩, ⟨m12, m13, m14, m15⟩⟩
  | _ => ⟨⟨0, 0, 0, 0⟩, ⟨0, 0, 0, 0⟩, ⟨0, 0, 0, 0⟩, ⟨0, 0, 0, 0⟩⟩

/-- The order in which the next round takes the words. -/
@[inline] def Message.permute : Message → Message
  | ⟨⟨m0, m1, m2, m3⟩, ⟨m4, m5, m6, m7⟩, ⟨m8, m9, m10, m11⟩, ⟨m12, m13, m14, m15⟩⟩ =>
      ⟨⟨m2, m6, m3, m10⟩, ⟨m7, m0, m4, m13⟩, ⟨m1, m11, m12, m5⟩, ⟨m9, m14, m15, m8⟩⟩

/-- The sixteen words that are mixed. -/
structure State where
  a : Row
  b : Row
  c : Row
  d : Row

/-- Mixes every column with its two message words. -/
@[inline] def State.mix (s : State) (x y : Row) : State :=
  let a := (s.a.add s.b).add x
  let d := (s.d.xor a).turnBits 16
  let c := s.c.add d
  let b := (s.b.xor c).turnBits 12
  let a := (a.add b).add y
  let d := (d.xor a).turnBits 8
  let c := c.add d
  let b := (b.xor c).turnBits 7
  ⟨a, b, c, d⟩

/-- One round: the columns, then the diagonals. -/
@[inline] def State.round (s : State) (m : Message) : State :=
  let s := s.mix ⟨m.r0.w0, m.r0.w2, m.r1.w0, m.r1.w2⟩ ⟨m.r0.w1, m.r0.w3, m.r1.w1, m.r1.w3⟩
  let s : State := ⟨s.a, s.b.turn, s.c.turn.turn, s.d.turn.turn.turn⟩
  let s := s.mix ⟨m.r2.w0, m.r2.w2, m.r3.w0, m.r3.w2⟩ ⟨m.r2.w1, m.r2.w3, m.r3.w1, m.r3.w3⟩
  ⟨s.a, s.b.turn.turn.turn, s.c.turn.turn, s.d.turn⟩

/-- That many rounds, the message permuted after each. -/
def State.rounds : Nat → State → Message → State
  | 0, s, _ => s
  | n + 1, s, m => (s.round m).rounds n m.permute

/-- Eight words that stand for everything compressed so far. -/
structure ChainingValue where
  left : Row
  right : Row
deriving DecidableEq

/-- The value a chunk starts from. -/
def ChainingValue.initial : ChainingValue :=
  ⟨⟨0x6A09E667, 0xBB67AE85, 0x3C6EF372, 0xA54FF53A⟩,
   ⟨0x510E527F, 0x9B05688C, 0x1F83D9AB, 0x5BE0CD19⟩⟩

/-- The thirty-two bytes of a chaining value. -/
def ChainingValue.bytes (v : ChainingValue) : Bytes := v.left.bytes ++ v.right.bytes

@[simp] theorem ChainingValue.length_bytes (v : ChainingValue) : v.bytes.length = 32 := by
  simp [ChainingValue.bytes]

/-- What a block is in the tree. -/
structure Role where
  chunkStart : Bool := false
  chunkEnd : Bool := false
  parent : Bool := false
  root : Bool := false

def Role.flags (r : Role) : UInt32 :=
  (if r.chunkStart then 1 else 0) + (if r.chunkEnd then 2 else 0) +
    (if r.parent then 4 else 0) + (if r.root then 8 else 0)

/-- Compresses a block of `size` bytes of the chunk with this number. -/
def compress (v : ChainingValue) (m : Message) (chunk size : Nat) (role : Role) :
    ChainingValue :=
  let start : State :=
    ⟨v.left, v.right, ChainingValue.initial.left,
      ⟨UInt32.ofNat (chunk % Nat.pow 2 32), UInt32.ofNat (chunk / Nat.pow 2 32), UInt32.ofNat size,
        role.flags⟩⟩
  let s := start.rounds 7 m
  ⟨s.a.xor s.c, s.b.xor s.d⟩

end MerkleStore.Blake3
