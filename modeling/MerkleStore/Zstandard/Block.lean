import MerkleStore.Zstandard.Header
import MerkleStore.XxHash64

/-!
# Blocks

A block has a header of three bytes and then its content: raw bytes, or one byte that is
repeated. Compressed blocks are not read. Blocks are read in one of two ways. A frame of
which every byte is there, and which announces a small content, is read at once (`gather`).
Any other frame is read block by block (`stream`), into a buffer that has room for the
content, or for the window and two blocks, whichever is less. Both give the content where
it keeps to the header, and differ in what they say where it does not.
-/

namespace MerkleStore.Zstandard

/-- How a block holds its content. -/
inductive Kind
  | raw
  | run
  | compressed
  | reserved
deriving DecidableEq

/-- The header of a block. -/
structure Block where
  isLast : Bool
  kind : Kind
  size : Nat

namespace Block

/-- The header that three bytes spell. -/
def ofBytes (bs : Bytes) : Block :=
  let n := ofLittleEndian bs
  let kind : Kind :=
    match n / 2 % 4 with
    | 0 => .raw
    | 1 => .run
    | 2 => .compressed
    | _ => .reserved
  ⟨n % 2 = 1, kind, n / 8⟩

def read (bs : Bytes) : Except Error (Block × Bytes) := do
  let (header, bs) ← splitExactly 3 bs
  return (.ofBytes header, bs)

/-- The number of bytes behind the header. -/
def width (b : Block) : Nat := if b.kind = .run then 1 else b.size

/-- The content that the bytes behind the header stand for. -/
def content (maxBlock room : Nat) (b : Block) (stored : Bytes) : Except Error Bytes :=
  match b.kind with
  | .raw => if room < b.size then .error .noRoom else .ok stored
  | .run =>
      if room < b.size then .error .noRoom
      else .ok (List.replicate b.size (stored.headD 0))
  | .compressed => .error (if maxBlock < b.size then .wrongSize else .corrupted)
  | .reserved => .error .corrupted

end Block

/-- Passes over the checksum of a content. -/
def readChecksum (h : Header) (content bs : Bytes) : Except Error (Bytes × Bytes) := do
  if !h.hasChecksum then return (content, bs)
  let (sum, bs) ← splitExactly 4 bs
  if ofLittleEndian sum ≠ (XxHash64.digest content).toNat % Nat.pow 2 32 then throw .wrongChecksum
  return (content, bs)

/-! ### At once -/

/-- The largest content that is read at once. -/
def chunkLimit : Nat := 8192

/-- What follows the last block, if all blocks are there. `fuel` bounds their
number. -/
def skipBlocks? : Nat → Bytes → Option Bytes
  | 0, _ => none
  | fuel + 1, bs =>
      match Block.read bs with
      | .error _ => none
      | .ok (b, bs) =>
          if b.kind = .reserved ∨ bs.length < b.width then none
          else if b.isLast then some (bs.drop b.width)
          else skipBlocks? fuel (bs.drop b.width)

/-- Whether a frame announces a small content and is there up to its last byte. -/
def isReadAtOnce (h : Header) (bs : Bytes) : Bool :=
  h.contentSize.any (· ≤ chunkLimit) &&
    (skipBlocks? bs.length bs).any fun rest => !h.hasChecksum || 4 ≤ rest.length

/-- The content of blocks up to and with the last one, for which there is this much
room, and what follows them. `fuel` bounds their number. -/
def gather (maxBlock : Nat) : Nat → Nat → Bytes → Except Error (Bytes × Bytes)
  | 0, _, _ => .error .incomplete
  | fuel + 1, room, bs => do
      let (b, bs) ← Block.read bs
      let (stored, bs) ← splitExactly b.width bs
      let content ← b.content maxBlock room stored
      if b.isLast then return (content, bs)
      let (more, bs) ← gather maxBlock fuel (room - content.length) bs
      return (content ++ more, bs)

/-- The content of a frame whose header has been read, and what follows it. -/
def readAtOnce (h : Header) (bs : Bytes) : Except Error (Bytes × Bytes) := do
  let (content, bs) ← gather h.maxBlock bs.length chunkLimit bs
  if !h.isMet content.length then throw .corrupted
  readChecksum h content bs

/-! ### Block by block -/

/-- The largest window a frame may ask for. -/
def windowLimit : Nat := Nat.pow 2 27 + 1

/-- The smallest window that is made. -/
def leastWindow : Nat := 1024

namespace Header

/-- The room for a window and two blocks. -/
def windowRoom (h : Header) : Nat := max h.window leastWindow + 2 * h.maxBlock + 64

/-- The room of the buffer. -/
def bufferSize (h : Header) : Nat :=
  match h.contentSize with
  | some size => min size h.windowRoom
  | none => h.windowRoom

/-- The room for the next block where this much is left: a buffer that does not
have room for the whole content is filled from its start again. -/
def nextRoom (h : Header) (left : Nat) : Nat :=
  if h.contentSize.all (h.bufferSize < ·) ∧ left < h.maxBlock then h.bufferSize else left

end Header

/-- The content of blocks up to and with the last one, after a content of `length`
bytes and with this much room in the buffer, and what follows them. `fuel` bounds
their number. -/
def stream (h : Header) : Nat → Nat → Nat → Bytes → Except Error (Bytes × Bytes)
  | 0, _, _, _ => .error .incomplete
  | fuel + 1, room, length, bs => do
      let (b, bs) ← Block.read bs
      if b.kind = .reserved ∨ h.maxBlock < b.width then throw .corrupted
      if b.width = 0 then
        if b.isLast then return ([], bs) else stream h fuel room length bs
      else
        if b.kind = .raw ∧ room < min b.size bs.length then throw .noRoom
        let (stored, bs) ← splitExactly b.width bs
        let content ← b.content h.maxBlock room stored
        if h.maxBlock < content.length then throw .corrupted
        let length := length + content.length
        if b.isLast then
          if !h.isMet length then throw .corrupted
          return (content, bs)
        let (more, bs) ← stream h fuel (h.nextRoom (room - content.length)) length bs
        return (content ++ more, bs)

/-- The content of a frame whose header has been read, and what follows it. -/
def readStream (h : Header) (bs : Bytes) : Except Error (Bytes × Bytes) := do
  if windowLimit < max h.window leastWindow then throw .windowTooLarge
  let (content, bs) ← stream h bs.length h.bufferSize 0 bs
  readChecksum h content bs

end MerkleStore.Zstandard
