import MerkleStore.Codec

/-!
# Zstandard frames

A container for contents. A frame starts with a mark and a header and consists of blocks
of at most 128 KiB. This module has what can go wrong with frames and `encode`, which
stores a content as it is, in raw blocks.
-/

namespace MerkleStore.Zstandard

/-- Why bytes are no sequence of frames. -/
inductive Error
  | incomplete
  | unknownFormat
  | unsupported
  | windowTooLarge
  | dictionaryRequired
  | corrupted
  | wrongChecksum
  /-- A block has more content than there is room for. -/
  | noRoom
  | wrongSize
deriving DecidableEq

def Error.message : Error → String
  | .incomplete => "incomplete frame"
  | .unknownFormat => "Unknown frame descriptor"
  | .unsupported => "Unsupported frame parameter"
  | .windowTooLarge => "Frame requires too much memory for decoding"
  | .dictionaryRequired => "Dictionary mismatch"
  | .corrupted => "Data corruption detected"
  | .wrongChecksum => "Restored data doesn't match checksum"
  | .noRoom => "Destination buffer is too small"
  | .wrongSize => "Src size is incorrect"

/-- The largest block. -/
def blockLimit : Nat := 131072

/-- The first `n` bytes and the rest. -/
def splitExactly (n : Nat) (bs : Bytes) : Except Error (Bytes × Bytes) :=
  if n ≤ bs.length then .ok (bs.take n, bs.drop n) else .error .incomplete

/-! ### Writing -/

/-- A raw block. -/
def rawBlock (isLast : Bool) (content : Bytes) : Bytes :=
  littleEndian 3 ((if isLast then 1 else 0) + 8 * content.length) ++ content

/-- Raw blocks, the last one marked. -/
def rawBlocks : List Bytes → Bytes
  | [] => []
  | [content] => rawBlock true content
  | content :: contents => rawBlock false content ++ rawBlocks contents

/-- A frame that holds the content as it is, with a window of two MiB. -/
def encode (content : Bytes) : Bytes :=
  Codec.mark ++ [0x00, 0x58] ++ rawBlocks (pieces blockLimit content.length content)

end MerkleStore.Zstandard
