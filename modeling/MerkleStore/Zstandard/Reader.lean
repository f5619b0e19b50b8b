import MerkleStore.Zstandard.Block

/-!
# Reading frames

`decode` gives the content of a byte string that is one frame or several, one after
the other. Between them may be skippable frames, which hold no content.
-/

namespace MerkleStore.Zstandard

/-- The length of a magic number and the byte behind it, which tell a format. -/
def startLength : Nat := 5

/-- Whether bytes are the start of a skippable frame's magic number, or start with
it. -/
def startsSkippable : Bytes → Bool
  | [] => true
  | b :: bs => b &&& 0xf0 == 0x50 && (bs.take 3).isPrefixOf [0x2a, 0x4d, 0x18]

/-- Whether bytes are the start of a magic number, or start with one. -/
def startsFrame (bs : Bytes) : Bool :=
  (bs.take 4).isPrefixOf Codec.mark || startsSkippable bs

/-- Whether bytes start with the mark of a former format, which is not read. -/
def startsFormer : Bytes → Bool
  | [] => false
  | b :: bs => 0x24 ≤ b && b ≤ 0x27 && (Codec.mark.drop 1).isPrefixOf bs

/-- What follows a skippable frame, from behind its magic number. -/
def skip (bs : Bytes) : Except Error (Bytes × Bytes) := do
  let (size, bs) ← splitExactly 4 bs
  let (_, bs) ← splitExactly (ofLittleEndian size) bs
  return ([], bs)

/-- The largest window that can be written down, as a power of two. -/
def maxWindowLog : Nat := 31

/-- The content of a frame behind its magic number, and what follows the frame. -/
def readPresent (bs : Bytes) : Except Error (Bytes × Bytes) := do
  let (h, bs) ← Header.read maxWindowLog bs
  if h.dictionary ≠ 0 then throw .dictionaryRequired
  if isReadAtOnce h bs then readAtOnce h bs else readStream h bs

/-- The content of the frame at the front, and what follows it. -/
def readFrame (bs : Bytes) : Except Error (Bytes × Bytes) :=
  if bs.length < startLength then
    .error (if startsFrame bs then .incomplete else .unknownFormat)
  else if bs.take 4 = Codec.mark then readPresent (bs.drop 4)
  else if startsSkippable bs then skip (bs.drop 4)
  else .error (if startsFormer bs then .corrupted else .unknownFormat)

/-- The content of frames up to the end. `fuel` bounds their number. -/
def readFrames : Nat → Bytes → Except Error Bytes
  | 0, _ => .error .incomplete
  | fuel + 1, bs => do
      let (content, bs) ← readFrame bs
      if bs.isEmpty then return content
      return content ++ (← readFrames fuel bs)

/-- The content of one or more frames. -/
def decode (bs : Bytes) : Except Error Bytes := readFrames (bs.length + 1) bs

end MerkleStore.Zstandard
