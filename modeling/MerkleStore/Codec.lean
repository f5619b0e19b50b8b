import MerkleStore.Bytes

/-!
# Codecs

What a journal writes down is packed by a compression library. The library is no part of
the store, which works with any codec. It relies on three things only: that what was packed
can be unpacked again, that a packed content starts with the library's mark, and that
packing never adds much to a content.
-/

namespace MerkleStore

/-- The mark at the start of everything that is packed. -/
def Codec.mark : Bytes := [0x28, 0xb5, 0x2f, 0xfd]

/-- A way to pack contents. -/
structure Codec where
  encode : Bytes → Bytes
  /-- The content of what was packed, or a message. -/
  decode : Bytes → Except String Bytes
  decode_encode : ∀ content, decode (encode content) = .ok content
  /-- Something stands behind the mark. -/
  marked : ∀ content, ∃ rest, rest ≠ [] ∧ encode content = Codec.mark ++ rest
  length_encode_le : ∀ content,
    (encode content).length ≤ content.length + content.length / 256 + 64

end MerkleStore
