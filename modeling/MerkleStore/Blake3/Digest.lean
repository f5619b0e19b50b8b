import MerkleStore.Blake3.Compression

/-!
# BLAKE3: the digest of a byte string

A byte string is cut into chunks of 1024 bytes and a chunk into blocks of 64;
the last of each may be shorter, and an empty input is one empty chunk with one
empty block. The blocks of a chunk are compressed in a row, the values of the
chunks are joined in pairs, level by level, a value without a neighbour moving
up as it is. The last compression is marked as the root and gives the digest.
-/

namespace MerkleStore.Blake3

/-- Compresses the blocks of a chunk in a row. -/
def chain (chunk : Nat) (isRoot : Bool) : Bool → ChainingValue → List Bytes → ChainingValue
  | _, v, [] => v
  | first, v, [block] =>
      compress v (.ofBlock block) chunk block.length
        { chunkStart := first, chunkEnd := true, root := isRoot }
  | first, v, block :: blocks =>
      chain chunk isRoot false
        (compress v (.ofBlock block) chunk block.length { chunkStart := first }) blocks

/-- The value of the chunk with this number. -/
def chunkValue (isRoot : Bool) (chunk : Nat) (bs : Bytes) : ChainingValue :=
  chain chunk isRoot true .initial (pieces 64 bs.length bs)

/-- Two values joined. -/
def parentValue (isRoot : Bool) (l r : ChainingValue) : ChainingValue :=
  compress .initial ⟨l.left, l.right, r.left, r.right⟩ 0 64 { parent := true, root := isRoot }

/-- One level up: neighbours are joined. -/
def joinPairs : List ChainingValue → List ChainingValue
  | l :: r :: vs => parentValue false l r :: joinPairs vs
  | vs => vs

/-- The root over the values of two or more chunks. `fuel` bounds the levels. -/
def rootValue : Nat → List ChainingValue → ChainingValue
  | _, [] => .initial
  | _, [v] => v
  | _, [l, r] => parentValue true l r
  | 0, v :: _ => v
  | fuel + 1, vs => rootValue fuel (joinPairs vs)

/-- The chaining value at the root of the tree over a byte string. -/
def root (bs : Bytes) : ChainingValue :=
  match pieces 1024 bs.length bs with
  | [chunk] => chunkValue true 0 chunk
  | chunks => rootValue chunks.length (chunks.mapIdx fun i chunk => chunkValue false i chunk)

/-- The BLAKE3 digest. -/
def digest (bs : Bytes) : Bytes32 := ⟨(root bs).bytes, by simp⟩

end MerkleStore.Blake3
