import MerkleStore.Bytes

/-!
# XXH64

The digest of eight bytes that checksums in Zstandard frames are taken from, with
the seed zero. Four words take in thirty-two bytes at a time; what is left goes
into their mixture, first eight bytes at a time, then four, then one.
-/

namespace MerkleStore.XxHash64

def prime1 : UInt64 := 0x9E3779B185EBCA87
def prime2 : UInt64 := 0xC2B2AE3D27D4EB4F
def prime3 : UInt64 := 0x165667B19E3779F9
def prime4 : UInt64 := 0x85EBCA77C2B2AE63
def prime5 : UInt64 := 0x27D4EB2F165667C5

def rotateLeft (x : UInt64) (n : UInt64) : UInt64 := (x <<< n) ||| (x >>> (64 - n))

/-- The number that bytes spell. -/
def word (bs : Bytes) : UInt64 := (ofLittleEndian bs).toUInt64

/-- One word of the state after a word of input. -/
def round (state input : UInt64) : UInt64 := rotateLeft (state + input * prime2) 31 * prime1

/-- The state: four words. -/
structure Lanes where
  a : UInt64
  b : UInt64
  c : UInt64
  d : UInt64

namespace Lanes

def initial : Lanes := ⟨prime1 + prime2, prime2, 0, 0 - prime1⟩

/-- The state after thirty-two bytes. -/
def absorb (s : Lanes) (bs : Bytes) : Lanes where
  a := round s.a (word (bs.take 8))
  b := round s.b (word ((bs.drop 8).take 8))
  c := round s.c (word ((bs.drop 16).take 8))
  d := round s.d (word ((bs.drop 24).take 8))

/-- The mixture of the four words. -/
def mix (s : Lanes) : UInt64 :=
  let sum := rotateLeft s.a 1 + rotateLeft s.b 7 + rotateLeft s.c 12 + rotateLeft s.d 18
  [s.a, s.b, s.c, s.d].foldl (fun h x => (h ^^^ round 0 x) * prime1 + prime4) sum

end Lanes

/-- The state after all whole thirty-two bytes, and the bytes that are left. `fuel`
bounds the number of steps. -/
def absorbAll : Nat → Lanes → Bytes → Lanes × Bytes
  | 0, s, bs => (s, bs)
  | fuel + 1, s, bs =>
      if bs.length < 32 then (s, bs) else absorbAll fuel (s.absorb (bs.take 32)) (bs.drop 32)

/-- Takes in the bytes that are left: fewer than thirty-two. `fuel` bounds the
number of steps. -/
def finish : Nat → UInt64 → Bytes → UInt64
  | 0, h, _ => h
  | fuel + 1, h, bs =>
      if 8 ≤ bs.length then
        finish fuel (rotateLeft (h ^^^ round 0 (word (bs.take 8))) 27 * prime1 + prime4) (bs.drop 8)
      else if 4 ≤ bs.length then
        finish fuel (rotateLeft (h ^^^ word (bs.take 4) * prime1) 23 * prime2 + prime3) (bs.drop 4)
      else
        match bs with
        | [] => h
        | b :: bs => finish fuel (rotateLeft (h ^^^ b.toUInt64 * prime5) 11 * prime1) bs

/-- Spreads every bit over the whole word. -/
def avalanche (h : UInt64) : UInt64 :=
  let h := (h ^^^ h >>> 33) * prime2
  let h := (h ^^^ h >>> 29) * prime3
  h ^^^ h >>> 32

/-- The digest of a byte string. -/
def digest (bs : Bytes) : UInt64 :=
  let (s, rest) := absorbAll (bs.length / 32) .initial bs
  let h := if bs.length < 32 then prime5 else s.mix
  avalanche (finish rest.length (h + bs.length.toUInt64) rest)

end MerkleStore.XxHash64
