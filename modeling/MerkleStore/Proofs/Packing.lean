import Mathlib.Data.List.Nodup
import MerkleStore.Zstandard.Stored

/-!
# Codecs with a table

A codec can be told what to pack some contents as (`PackingTable.codec`). It stays a codec if
these payloads differ, are no payloads of its own and are not much longer than what they
hold. `sampleCodec` is such a codec. It packs the contents of the examples as the compression
library does at its third level, and stores any other content as it is.
-/

namespace MerkleStore

/-- A content and what it is packed as. -/
structure Packed where
  content : Bytes
  payload : Bytes

/-- Contents that are packed in another way than a codec packs them. -/
structure PackingTable (z : Codec) where
  entries : List Packed
  nodup : (entries.map Packed.payload).Nodup
  /-- The codec makes no sense of the payloads itself. -/
  unread : ∀ p ∈ entries, (z.decode p.payload).toOption = none
  marked : ∀ p ∈ entries, p.payload.take 4 = Codec.mark ∧ 4 < p.payload.length
  length_le : ∀ p ∈ entries,
    p.payload.length ≤ p.content.length + p.content.length / 256 + 64

namespace PackingTable

variable {z : Codec} (table : PackingTable z)

def encode (content : Bytes) : Bytes :=
  match table.entries.find? (·.content == content) with
  | some p => p.payload
  | none => z.encode content

def decode (payload : Bytes) : Except String Bytes :=
  match table.entries.find? (·.payload == payload) with
  | some p => .ok p.content
  | none => z.decode payload

/-- A content is packed by the table, or else by the codec. -/
theorem encode_cases (content : Bytes) :
    (∃ p ∈ table.entries, p.content = content ∧ table.encode content = p.payload) ∨
      table.encode content = z.encode content := by
  rw [encode]
  cases hfind : table.entries.find? (·.content == content) with
  | none => exact .inr rfl
  | some p =>
      exact .inl ⟨p, List.mem_of_find?_eq_some hfind, by simpa using List.find?_some hfind, rfl⟩

/-- Payloads of the table are read with the table. -/
theorem decode_payload {p : Packed} (hp : p ∈ table.entries) :
    table.decode p.payload = .ok p.content := by
  rw [decode]
  cases hfind : table.entries.find? (·.payload == p.payload) with
  | none => exact absurd (List.find?_eq_none.mp hfind p hp) (by simp)
  | some q =>
      have hq := List.mem_of_find?_eq_some hfind
      have heq : q.payload = p.payload := by simpa using List.find?_some hfind
      rw [List.inj_on_of_nodup_map table.nodup hq hp heq]

/-- Payloads of the codec are read without the table, which has none of them. -/
theorem decode_encode_codec (content : Bytes) : table.decode (z.encode content) = .ok content := by
  rw [decode]
  cases hfind : table.entries.find? (·.payload == z.encode content) with
  | none => exact z.decode_encode content
  | some p =>
      have hread := table.unread p (List.mem_of_find?_eq_some hfind)
      have heq : p.payload = z.encode content := by simpa using List.find?_some hfind
      rw [heq, z.decode_encode] at hread
      cases hread

/-- The codec that packs with the table where it can. -/
def codec : Codec where
  encode := table.encode
  decode := table.decode
  decode_encode content := by
    obtain ⟨p, hp, rfl, heq⟩ | heq := table.encode_cases content
    · rw [heq, table.decode_payload hp]
    · rw [heq, table.decode_encode_codec]
  marked content := by
    obtain ⟨p, hp, -, heq⟩ | heq := table.encode_cases content
    · obtain ⟨hmark, hlong⟩ := table.marked p hp
      refine ⟨p.payload.drop 4, List.drop_eq_nil_iff.not.mpr (Nat.not_le.mpr hlong), ?_⟩
      rw [heq, ← hmark, List.take_append_drop]
    · rw [heq]
      exact z.marked content
  length_encode_le content := by
    obtain ⟨p, hp, rfl, heq⟩ | heq := table.encode_cases content
    · rw [heq]
      exact table.length_le p hp
    · rw [heq]
      exact z.length_encode_le content

/-- If the contents of a table are short, and all others are stored as they are, then there is room
for whatever is no longer than a content for which there is room. -/
theorem length_encode_le_of_le {table : PackingTable Zstandard.stored} {limit : Nat}
    (hshort : ∀ p ∈ table.entries, 2 * p.content.length + 64 ≤ limit) {content content' : Bytes}
    (hle : content'.length ≤ content.length) (h : (table.encode content).length ≤ limit) :
    (table.encode content').length ≤ limit := by
  obtain ⟨p, hp, rfl, heq⟩ | heq := table.encode_cases content'
  · have hpayload := table.length_le p hp
    have hroom := hshort p hp
    rw [heq]
    omega
  · rw [heq]
    obtain ⟨p, hp, rfl, -⟩ | hstored := table.encode_cases content
    · have hpayload := Zstandard.stored.length_encode_le content'
      have hroom := hshort p hp
      omega
    · rw [hstored] at h
      exact Nat.le_trans (Zstandard.length_encode_mono hle) h

/-- A content that is longer than those of the table is stored as it is. -/
theorem length_lt_length_encode {table : PackingTable Zstandard.stored} {content : Bytes}
    (hlong : ∀ p ∈ table.entries, p.content.length < content.length) :
    content.length < (table.encode content).length := by
  obtain ⟨p, hp, rfl, -⟩ | heq := table.encode_cases content
  · exact absurd (hlong p hp) (Nat.lt_irrefl _)
  · rw [heq]
    show _ < (Zstandard.encode content).length
    rw [Zstandard.length_encode]
    omega

end PackingTable

/-! ## Contents of the examples -/

/-- The first bytes of words of forty bytes each, which are given as numbers. -/
def ofWords (length : Nat) (words : List Nat) : Bytes :=
  (words.flatMap fun word => (littleEndian 40 word).reverse).take length

/-- A content and a payload that are given as words. -/
def Packed.ofWords (length : Nat) (content : List Nat) (size : Nat) (payload : List Nat) : Packed :=
  ⟨MerkleStore.ofWords length content, MerkleStore.ofWords size payload⟩

/-- What the compression library makes of the contents of the examples. -/
def samplePackings : List Packed := [
  -- tree 7 is created
  .ofWords 57 [
      0x01000000000000000100000007070707070707070707070707070707070707070707070707070707,
      0x07070707000000000000000000000000000000000000000000000000000000000000000000000000]
    26 [
      0x28b52ffd00588d00004001000100000007000310009c687ac0020000000000000000000000000000],
  -- key 1 is inserted into the empty tree
  .ofWords 251 [
      0x03000000000000000000000000000000d7b7c95acfa45ceb5ca94a1443ef5ab40b17e8b501ea1b81,
      0xad38750a85efe8e801000000000000000101000000000000000a0100000007070707070707070707,
      0x07070707070707070707070707070707070707070707010000000000000001d7b7c95acfa45ceb5c,
      0xa94a1443ef5ab40b17e8b501ea1b81ad38750a85efe8e80000000002000000070707070707070707,
      0x0707070707070707070707070707070707070707070707010000000000000000000000d7b7c95acf,
      0xa45ceb5ca94a1443ef5ab40b17e8b501ea1b81ad38750a85efe8e801000000000000000101000000,
      0x000000000a0000000000000000000000000000000000000000000000000000000000000000000000]
    86 [
      0x28b52ffd00586d020034030300d7b7c95acfa45ceb5ca94a1443ef5ab40b17e8b501ea1b81ad3875,
      0x0a85efe8e80100010a070100000000020000000000000900b3d909a0c254316086ea355c33108485,
      0x5c81e1c9000b00000000000000000000000000000000000000000000000000000000000000000000],
  -- key 2 is inserted to the left of key 1
  .ofWords 391 [
      0x040000000000000000000000000000000311469bf5599fa43ef6d061949448bcdbb78000bd552890,
      0x7179a1c01b0e3f260100000000000000020100000000000000140000000001000000f997a09cde3d,
      0xbad2488859eee427981157c8c2cfd0c34c9abf35d4de23a6e98a0311469bf5599fa43ef6d0619494,
      0x48bcdbb78000bd5528907179a1c01b0e3f26d7b7c95acfa45ceb5ca94a1443ef5ab40b17e8b501ea,
      0x1b81ad38750a85efe8e8010000000707070707070707070707070707070707070707070707070707,
      0x070707070707020000000000000001f997a09cde3dbad2488859eee427981157c8c2cfd0c34c9abf,
      0x35d4de23a6e98a000000000200000007070707070707070707070707070707070707070707070707,
      0x07070707070707020000000000000000000000f997a09cde3dbad2488859eee427981157c8c2cfd0,
      0xc34c9abf35d4de23a6e98a01000000000000000201000000000000001401d7b7c95acfa45ceb5ca9,
      0x4a1443ef5ab40b17e8b501ea1b81ad38750a85efe8e8010000000000000000000000000000000000]
    174 [
      0x28b52ffd00582d0500240804000311469bf5599fa43ef6d061949448bcdbb78000bd5528907179a1,
      0xc01b0e3f26010002140000000001000000f997a09cde3dbad2488859eee427981157c8c2cfd0c34c,
      0x9abf35d4de23a6e98ad7b7c95acfa45ceb5ca94a1443ef5ab40b17e8b501ea1b81ad38750a85efe8,
      0xe801000000070200010000000002000100000000000c00af46c4632154ec0bc8465ea83015623003,
      0x582bde9074016b962704b027032c0000000000000000000000000000000000000000000000000000],
  -- key 1 is deleted, and key 2 is left
  .ofWords 183 [
      0x02000000000000000100000007070707070707070707070707070707070707070707070707070707,
      0x070707070300000000000000010311469bf5599fa43ef6d061949448bcdbb78000bd5528907179a1,
      0xc01b0e3f260000000002000000070707070707070707070707070707070707070707070707070707,
      0x0707070707030000000000000001000000010311469bf5599fa43ef6d061949448bcdbb78000bd55,
      0x28907179a1c01b0e3f26010000000000000001000000000000000000000000000000000000000000]
    80 [
      0x28b52ffd00583d02004403020001000000070300010311469bf5599fa43ef6d061949448bcdbb780,
      0x00bd5528907179a1c01b0e3f2600000000020100000000060001232416247054300f6018343d002c],
  -- key 3 is inserted to the right of key 2
  .ofWords 391 [
      0x04000000000000000000000000000000d1c6a641cf554679c7c6f4ac619284c5c398ce4dcb38d06f,
      0x32ec396dbcd1e96801000000000000000301000000000000001e0000000001000000d64c85575c84,
      0x3a13593b65d6fa98b050ca699d951ee6979d8d2f8fe4a75ce43a0311469bf5599fa43ef6d0619494,
      0x48bcdbb78000bd5528907179a1c01b0e3f26d1c6a641cf554679c7c6f4ac619284c5c398ce4dcb38,
      0xd06f32ec396dbcd1e968010000000707070707070707070707070707070707070707070707070707,
      0x070707070707040000000000000001d64c85575c843a13593b65d6fa98b050ca699d951ee6979d8d,
      0x2f8fe4a75ce43a000000000200000007070707070707070707070707070707070707070707070707,
      0x07070707070707040000000000000000000000d64c85575c843a13593b65d6fa98b050ca699d951e,
      0xe6979d8d2f8fe4a75ce43a01000000000000000301000000000000001e010311469bf5599fa43ef6,
      0xd061949448bcdbb78000bd5528907179a1c01b0e3f26010100000000000000000000000000000000]
    174 [
      0x28b52ffd00582d050024080400d1c6a641cf554679c7c6f4ac619284c5c398ce4dcb38d06f32ec39,
      0x6dbcd1e9680100031e0000000001000000d64c85575c843a13593b65d6fa98b050ca699d951ee697,
      0x9d8d2f8fe4a75ce43a0311469bf5599fa43ef6d061949448bcdbb78000bd5528907179a1c01b0e3f,
      0x2607040001000000000200010101000000000000000c0077c3e2b1102af60564232f54980a319801,
      0xace18d24fb400ccb1302d89301160000000000000000000000000000000000000000000000000000],
  -- generation 1 is confirmed
  .ofWords 56 [
      0x01000000000000000300000007070707070707070707070707070707070707070707070707070707,
      0x07070707010000000000000001000000000000000000000000000000000000000000000000000000]
    31 [
      0x28b52ffd0058b500006801000300000007010001000000031000036e7ac002000000000000000000],
  -- generation 0 is confirmed
  .ofWords 56 [
      0x01000000000000000300000007070707070707070707070707070707070707070707070707070707,
      0x07070707000000000000000001000000000000000000000000000000000000000000000000000000]
    30 [
      0x28b52ffd0058ad00006001000300000007000100000003100099687ac00200000000000000000000],
  -- tree 8 is created
  .ofWords 57 [
      0x01000000000000000100000008080808080808080808080808080808080808080808080808080808,
      0x08080808000000000000000000000000000000000000000000000000000000000000000000000000]
    26 [
      0x28b52ffd00588d00004001000100000008000310009c687ac0020000000000000000000000000000],
  -- key 1 is inserted into tree 8, with nodes that are there
  .ofWords 193 [
      0x02000000000000000100000008080808080808080808080808080808080808080808080808080808,
      0x08080808010000000000000001d7b7c95acfa45ceb5ca94a1443ef5ab40b17e8b501ea1b81ad3875,
      0x0a85efe8e80000000002000000080808080808080808080808080808080808080808080808080808,
      0x0808080808010000000000000000000000d7b7c95acfa45ceb5ca94a1443ef5ab40b17e8b501ea1b,
      0x81ad38750a85efe8e801000000000000000101000000000000000a00000000000000000000000000]
    86 [
      0x28b52ffd00586d0200640302000100000008010001d7b7c95acfa45ceb5ca94a1443ef5ab40b17e8,
      0xb501ea1b81ad38750a85efe8e800000000020a00000000000008002c02002be00a08c0024305f300,
      0x8641d303c00200000000000000000000000000000000000000000000000000000000000000000000],
  -- key 2 is inserted to the left of it
  .ofWords 229 [
      0x02000000000000000100000008080808080808080808080808080808080808080808080808080808,
      0x08080808020000000000000001f997a09cde3dbad2488859eee427981157c8c2cfd0c34c9abf35d4,
      0xde23a6e98a0000000002000000080808080808080808080808080808080808080808080808080808,
      0x0808080808020000000000000000000000f997a09cde3dbad2488859eee427981157c8c2cfd0c34c,
      0x9abf35d4de23a6e98a01000000000000000201000000000000001401d7b7c95acfa45ceb5ca94a14,
      0x43ef5ab40b17e8b501ea1b81ad38750a85efe8e80100000000000000000000000000000000000000]
    120 [
      0x28b52ffd00587d0300640502000100000008020001f997a09cde3dbad2488859eee427981157c8c2,
      0xcfd0c34c9abf35d4de23a6e98a0000000002010000021401d7b7c95acfa45ceb5ca94a1443ef5ab4,
      0x0b17e8b501ea1b81ad38750a85efe8e80009006a8a3c169aa4d75d01035860a8601ec030687a0058],
  -- key 1 is deleted from tree 8
  .ofWords 183 [
      0x02000000000000000100000008080808080808080808080808080808080808080808080808080808,
      0x080808080300000000000000010311469bf5599fa43ef6d061949448bcdbb78000bd5528907179a1,
      0xc01b0e3f260000000002000000080808080808080808080808080808080808080808080808080808,
      0x0808080808030000000000000001000000010311469bf5599fa43ef6d061949448bcdbb78000bd55,
      0x28907179a1c01b0e3f26010000000000000001000000000000000000000000000000000000000000]
    80 [
      0x28b52ffd00583d02004403020001000000080300010311469bf5599fa43ef6d061949448bcdbb780,
      0x00bd5528907179a1c01b0e3f2600000000020100000000060001232416247054300f6018343d002c],
  -- key 2 is inserted to the right of key 1 in tree 7
  .ofWords 391 [
      0x040000000000000000000000000000000311469bf5599fa43ef6d061949448bcdbb78000bd552890,
      0x7179a1c01b0e3f260100000000000000020100000000000000140000000001000000e3af69c18c41,
      0xb7a5c18f1bf08d932b56245eb25118fda39d51405a5dde85975bd7b7c95acfa45ceb5ca94a1443ef,
      0x5ab40b17e8b501ea1b81ad38750a85efe8e80311469bf5599fa43ef6d061949448bcdbb78000bd55,
      0x28907179a1c01b0e3f26010000000707070707070707070707070707070707070707070707070707,
      0x070707070707020000000000000001e3af69c18c41b7a5c18f1bf08d932b56245eb25118fda39d51,
      0x405a5dde85975b000000000200000007070707070707070707070707070707070707070707070707,
      0x07070707070707020000000000000000000000e3af69c18c41b7a5c18f1bf08d932b56245eb25118,
      0xfda39d51405a5dde85975b01000000000000000201000000000000001401d7b7c95acfa45ceb5ca9,
      0x4a1443ef5ab40b17e8b501ea1b81ad38750a85efe8e8010100000000000000000000000000000000]
    174 [
      0x28b52ffd00582d0500240804000311469bf5599fa43ef6d061949448bcdbb78000bd5528907179a1,
      0xc01b0e3f26010002140000000001000000e3af69c18c41b7a5c18f1bf08d932b56245eb25118fda3,
      0x9d51405a5dde85975bd7b7c95acfa45ceb5ca94a1443ef5ab40b17e8b501ea1b81ad38750a85efe8,
      0xe807020001000000000200010101000000000000000c0077c3e2b1102af60564232f54980a319801,
      0xace18d24fb400ccb1302d89301160000000000000000000000000000000000000000000000000000],
  -- the same in tree 8, with nodes that are there
  .ofWords 229 [
      0x02000000000000000100000008080808080808080808080808080808080808080808080808080808,
      0x08080808020000000000000001e3af69c18c41b7a5c18f1bf08d932b56245eb25118fda39d51405a,
      0x5dde85975b0000000002000000080808080808080808080808080808080808080808080808080808,
      0x0808080808020000000000000000000000e3af69c18c41b7a5c18f1bf08d932b56245eb25118fda3,
      0x9d51405a5dde85975b01000000000000000201000000000000001401d7b7c95acfa45ceb5ca94a14,
      0x43ef5ab40b17e8b501ea1b81ad38750a85efe8e80101000000000000000000000000000000000000]
    125 [
      0x28b52ffd0058a50300e40502000100000008020001e3af69c18c41b7a5c18f1bf08d932b56245eb2,
      0x5118fda39d51405a5dde85975b0000000002010000021401d7b7c95acfa45ceb5ca94a1443ef5ab4,
      0x0b17e8b501ea1b81ad38750a85efe8e801010000000000000008002c3449afbb0206b0c050c13c80,
      0x61d0f400b00000000000000000000000000000000000000000000000000000000000000000000000],
  -- the same in tree 8, with its nodes
  .ofWords 391 [
      0x040000000000000000000000000000000311469bf5599fa43ef6d061949448bcdbb78000bd552890,
      0x7179a1c01b0e3f260100000000000000020100000000000000140000000001000000e3af69c18c41,
      0xb7a5c18f1bf08d932b56245eb25118fda39d51405a5dde85975bd7b7c95acfa45ceb5ca94a1443ef,
      0x5ab40b17e8b501ea1b81ad38750a85efe8e80311469bf5599fa43ef6d061949448bcdbb78000bd55,
      0x28907179a1c01b0e3f26010000000808080808080808080808080808080808080808080808080808,
      0x080808080808020000000000000001e3af69c18c41b7a5c18f1bf08d932b56245eb25118fda39d51,
      0x405a5dde85975b000000000200000008080808080808080808080808080808080808080808080808,
      0x08080808080808020000000000000000000000e3af69c18c41b7a5c18f1bf08d932b56245eb25118,
      0xfda39d51405a5dde85975b01000000000000000201000000000000001401d7b7c95acfa45ceb5ca9,
      0x4a1443ef5ab40b17e8b501ea1b81ad38750a85efe8e8010100000000000000000000000000000000]
    174 [
      0x28b52ffd00582d0500240804000311469bf5599fa43ef6d061949448bcdbb78000bd5528907179a1,
      0xc01b0e3f26010002140000000001000000e3af69c18c41b7a5c18f1bf08d932b56245eb25118fda3,
      0x9d51405a5dde85975bd7b7c95acfa45ceb5ca94a1443ef5ab40b17e8b501ea1b81ad38750a85efe8,
      0xe808020001000000000200010101000000000000000c0077c3e2b1102af60564232f54980a319801,
      0xace18d24fb400ccb1302d89301160000000000000000000000000000000000000000000000000000],
  -- the same in tree 7, with nodes that are there
  .ofWords 229 [
      0x02000000000000000100000007070707070707070707070707070707070707070707070707070707,
      0x07070707020000000000000001e3af69c18c41b7a5c18f1bf08d932b56245eb25118fda39d51405a,
      0x5dde85975b0000000002000000070707070707070707070707070707070707070707070707070707,
      0x0707070707020000000000000000000000e3af69c18c41b7a5c18f1bf08d932b56245eb25118fda3,
      0x9d51405a5dde85975b01000000000000000201000000000000001401d7b7c95acfa45ceb5ca94a14,
      0x43ef5ab40b17e8b501ea1b81ad38750a85efe8e80101000000000000000000000000000000000000]
    125 [
      0x28b52ffd0058a50300e40502000100000007020001e3af69c18c41b7a5c18f1bf08d932b56245eb2,
      0x5118fda39d51405a5dde85975b0000000002010000021401d7b7c95acfa45ceb5ca94a1443ef5ab4,
      0x0b17e8b501ea1b81ad38750a85efe8e801010000000000000008002c3449afbb0206b0c050c13c80,
      0x61d0f400b00000000000000000000000000000000000000000000000000000000000000000000000],
  -- a root without its node
  .ofWords 89 [
      0x01000000000000000100000007070707070707070707070707070707070707070707070707070707,
      0x07070707000000000000000001d7b7c95acfa45ceb5ca94a1443ef5ab40b17e8b501ea1b81ad3875,
      0x0a85efe8e80000000000000000000000000000000000000000000000000000000000000000000000]
    64 [
      0x28b52ffd0058bd0100d402010001000000070001d7b7c95acfa45ceb5ca94a1443ef5ab40b17e8b5,
      0x01ea1b81ad38750a85efe8e80000000003100099687ac00200000000000000000000000000000000],
  -- tree 7 and its generation 1 in one transaction
  .ofWords 300 [
      0x04000000000000000100000007070707070707070707070707070707070707070707070707070707,
      0x07070707000000000000000000000000000000000000000000d7b7c95acfa45ceb5ca94a1443ef5a,
      0xb40b17e8b501ea1b81ad38750a85efe8e801000000000000000101000000000000000a0100000007,
      0x07070707070707070707070707070707070707070707070707070707070707010000000000000001,
      0xd7b7c95acfa45ceb5ca94a1443ef5ab40b17e8b501ea1b81ad38750a85efe8e80000000002000000,
      0x07070707070707070707070707070707070707070707070707070707070707070100000000000000,
      0x00000000d7b7c95acfa45ceb5ca94a1443ef5ab40b17e8b501ea1b81ad38750a85efe8e801000000,
      0x000000000101000000000000000a0000000000000000000000000000000000000000000000000000]
    98 [
      0x28b52ffd0058cd0200b4030400010000000700d7b7c95acfa45ceb5ca94a1443ef5ab40b17e8b501,
      0xea1b81ad38750a85efe8e80100010a0707010100000000020000000000000b00b3d909a0c2543160,
      0x06aeb3410c2cc6f28400f680bea0e901600100000000000000000000000000000000000000000000],
  -- a root without its operation, and a status
  .ofWords 105 [
      0x02000000000000000100000007070707070707070707070707070707070707070707070707070707,
      0x07070707020000000000000000000000000300000007070707070707070707070707070707070707,
      0x07070707070707070707070707010000000000000001000000000000000000000000000000000000]
    38 [
      0x28b52ffd0058ed0000780200010000000702000301010000000500201354910b620c9a1e00160000],
  -- two trees in one transaction
  .ofWords 397 [
      0x06000000000000000100000007070707070707070707070707070707070707070707070707070707,
      0x07070707000000000000000000000000000100000008080808080808080808080808080808080808,
      0x08080808080808080808080808000000000000000000000000000100000007070707070707070707,
      0x07070707070707070707070707070707070707070707010000000000000001d7b7c95acfa45ceb5c,
      0xa94a1443ef5ab40b17e8b501ea1b81ad38750a85efe8e80000000003000000080808080808080808,
      0x08080808080808080808080808080808080808080808080000000000000000010000000000000000,
      0x000000d7b7c95acfa45ceb5ca94a1443ef5ab40b17e8b501ea1b81ad38750a85efe8e80100000000,
      0x0000000101000000000000000a020000000707070707070707070707070707070707070707070707,
      0x070707070707070707010000000000000000000000d7b7c95acfa45ceb5ca94a1443ef5ab40b17e8,
      0xb501ea1b81ad38750a85efe8e801000000000000000101000000000000000a000000000000000000]
    111 [
      0x28b52ffd0058350300f40306000100000007000100000008000101d7b7c95acfa45ceb5ca94a1443,
      0xef5ab40b17e8b501ea1b81ad38750a85efe8e8000000000301010a020000000000000f002be304f8,
      0x8c4196c74f5ffb020e9c03acd7148c79706f19c800dc058d028e81f606d006000000000000000000],
  -- a node that is its own child
  .ofWords 251 [
      0x03000000000000000000000000000000d7b7c95acfa45ceb5ca94a1443ef5ab40b17e8b501ea1b81,
      0xad38750a85efe8e801000000000000000101000000000000000a0000000001000000050505050505,
      0x0505050505050505050505050505050505050505050505050505d7b7c95acfa45ceb5ca94a1443ef,
      0x5ab40b17e8b501ea1b81ad38750a85efe8e805050505050505050505050505050505050505050505,
      0x05050505050505050505010000000707070707070707070707070707070707070707070707070707,
      0x07070707070700000000000000000105050505050505050505050505050505050505050505050505,
      0x05050505050505000000000000000000000000000000000000000000000000000000000000000000]
    95 [
      0x28b52ffd0058b50200e4030300d7b7c95acfa45ceb5ca94a1443ef5ab40b17e8b501ea1b81ad3875,
      0x0a85efe8e80100010a0000000001000000050505050100000007000105000000000900a021c818de,
      0x0410f77601b7b8862ce40a0c4f065800000000000000000000000000000000000000000000000000],
  -- records of every kind
  .ofWords 652 [
      0x08000000000000000000000000000000050505050505050505050505050505050505050505050505,
      0x050505050505050501000000000000000101000000000000000a0000000001000000060606060606,
      0x06060606060606060606060606060606060606060606060606060505050505050505050505050505,
      0x05050505050505050505050505050505050505050505050505050505050505050505050505050505,
      0x05050505050505050505010000000707070707070707070707070707070707070707070707070707,
      0x07070707070701000000000000000105050505050505050505050505050505050505050505050505,
      0x05050505050505010000000100000007070707070707070707070707070707070707070707070707,
      0x07070707070707020000000000000000000000000200000007070707070707070707070707070707,
      0x07070707070707070707070707070707010000000000000000000000050505050505050505050505,
      0x050505050505050505050505050505050505050501000000000000000101000000000000000a0105,
      0x05050505050505050505050505050505050505050505050505050505050505010000000000000000,
      0x02000000070707070707070707070707070707070707070707070707070707070707070701000000,
      0x00000000000000000505050505050505050505050505050505050505050505050505050505050505,
      0x00000000000000000000000000000000000001000000020000000707070707070707070707070707,
      0x07070707070707070707070707070707070702000000000000000100000000010000000000000001,
      0x00000000030000000707070707070707070707070707070707070707070707070707070707070707,
      0xffffffffffffffff0100000000000000000000000000000000000000000000000000000000000000]
    116 [
      0x28b52ffd00585d030054020800050100010a00000000010000000605010000000701010707020200,
      0x020103ff010000001d00782682406e450703410e325e3762224b021c000b909d3c6c0a3b7be0697d,
      0x000e80050ac61cce0510460a013873cf0dcc18f35ad02881c470ad59080343038d90011600000000],
  -- a key is inserted that is the frame in which tree 7 was created
  .ofWords 373 [
      0x030000000000000000000000000000004ce5ed15e0c0b7d184a86366b117ec9e9422bf6a1312ef5f,
      0x2d9712538da9d06a3e000000000000001a0000004736d0ad99c4ba1eed0a9974a0403b1cf85d7c93,
      0xc7fd269bfa993fc330d5c43b28b52ffd00588d00004001000100000007000310009c687ac0020100,
      0x0000000000000a010000000707070707070707070707070707070707070707070707070707070707,
      0x0707070100000000000000014ce5ed15e0c0b7d184a86366b117ec9e9422bf6a1312ef5f2d971253,
      0x8da9d06a000000000200000007070707070707070707070707070707070707070707070707070707,
      0x070707070100000000000000000000004ce5ed15e0c0b7d184a86366b117ec9e9422bf6a1312ef5f,
      0x2d9712538da9d06a3e000000000000001a0000004736d0ad99c4ba1eed0a9974a0403b1cf85d7c93,
      0xc7fd269bfa993fc330d5c43b28b52ffd00588d00004001000100000007000310009c687ac0020100,
      0x0000000000000a000000000000000000000000000000000000000000000000000000000000000000]
    149 [
      0x28b52ffd0058650400140703004ce5ed15e0c0b7d184a86366b117ec9e9422bf6a1312ef5f2d9712,
      0x538da9d06a3e001a0000004736d0ad99c4ba1eed0a9974a0403b1cf85d7c93c7fd269bfa993fc330,
      0xd5c43b28b52ffd00588d00004001000100000007000310009c687ac00201000a0100000000020000,
      0x000000000900706e29800a533f063354af810e9df700308ec04064d0060000000000000000000000]]

/-- The codec of the examples. -/
def sampleCodec : Codec :=
  PackingTable.codec (z := Zstandard.stored)
    { entries := samplePackings
      nodup := by decide +kernel
      unread := by decide +kernel
      marked := by decide +kernel
      length_le := by decide +kernel }

end MerkleStore
