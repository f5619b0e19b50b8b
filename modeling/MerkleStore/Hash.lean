import MerkleStore.Blake3.Digest
import MerkleStore.Hex

/-!
# Content hashes and tree ids

A node is named by the BLAKE3 digest of its content. The two kinds of content
start with different bytes, and a key is preceded by its length, so two
contents that differ are two different byte strings under the digest.
-/

namespace MerkleStore

/-- The name of a node: a BLAKE3 digest. -/
structure Hash where
  bytes : Bytes32
deriving DecidableEq, Inhabited

/-- The name of a tree, chosen by whoever creates it. -/
structure TreeId where
  bytes : Bytes32
deriving DecidableEq, Inhabited

namespace Hash

/-- The digest of any byte string. -/
def digest (bs : Bytes) : Hash := ⟨Blake3.digest bs⟩

/-- The bytes under the hash of a terminal node. -/
def terminalContent (key value : Bytes) : Bytes :=
  1 :: littleEndian 8 key.length ++ key ++ value

/-- The bytes under the hash of an internal node. -/
def internalContent (left right : Hash) : Bytes :=
  2 :: left.bytes.toList ++ right.bytes.toList

/-- The hash of a node that holds `key` and `value`. -/
def terminal (key value : Bytes) : Hash := digest (terminalContent key value)

/-- The hash of a node over two subtrees. -/
def internal (left right : Hash) : Hash := digest (internalContent left right)

/-- Sixty-four lower-case digits. -/
def hex (h : Hash) : String := Hex.encode h.bytes.toList

/-- The first seven digits, to be read by people. -/
def brief (h : Hash) : String := String.ofList ((Hex.digits h.bytes.toList).take 7)

/-- Reads sixty-four digits, after `0x` or without it. -/
def ofHex (text : String) : Except Hex.Error Hash :=
  (Hex.decode32 (Hex.dropMarker text.toList)).map Hash.mk

instance : Ord Hash := ⟨fun a b => compare a.bytes b.bytes⟩

instance : Std.TransOrd Hash where
  eq_swap {a b} := @Std.OrientedCmp.eq_swap Bytes32 compare _ a.bytes b.bytes
  isLE_trans {a b c} := @Std.TransCmp.isLE_trans Bytes32 compare _ a.bytes b.bytes c.bytes

instance : Std.LawfulEqOrd Hash where
  compare_self := Std.ReflCmp.compare_self
  eq_of_compare {a b} h := by
    cases a; cases b
    exact congrArg Hash.mk (@Std.LawfulEqCmp.eq_of_compare Bytes32 compare _ _ _ h)

end Hash

namespace TreeId

/-- Sixty-four lower-case digits. -/
def hex (t : TreeId) : String := Hex.encode t.bytes.toList

/-- The first seven digits, to be read by people. -/
def brief (t : TreeId) : String := String.ofList ((Hex.digits t.bytes.toList).take 7)

/-- Reads sixty-four digits, after `0x` or without it. -/
def ofHex (text : String) : Except Hex.Error TreeId :=
  (Hex.decode32 (Hex.dropMarker text.toList)).map TreeId.mk

instance : Ord TreeId := ⟨fun a b => compare a.bytes b.bytes⟩

instance : Std.TransOrd TreeId where
  eq_swap {a b} := @Std.OrientedCmp.eq_swap Bytes32 compare _ a.bytes b.bytes
  isLE_trans {a b c} := @Std.TransCmp.isLE_trans Bytes32 compare _ a.bytes b.bytes c.bytes

instance : Std.LawfulEqOrd TreeId where
  compare_self := Std.ReflCmp.compare_self
  eq_of_compare {a b} h := by
    cases a; cases b
    exact congrArg TreeId.mk (@Std.LawfulEqCmp.eq_of_compare Bytes32 compare _ _ _ h)

end TreeId

end MerkleStore
