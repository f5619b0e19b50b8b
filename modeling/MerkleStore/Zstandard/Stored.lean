import MerkleStore.Zstandard.Reader

/-!
# The codec of stored contents

`encode` announces a window and no content size, so the reader goes from block to block
(`stream`). There is always room for a whole block in its buffer, and what the blocks hold
together is the content (`decode_encode`). So `encode` and `decode` are a codec (`stored`),
the one the program runs with.
-/

namespace MerkleStore.Zstandard

/-- The header that `encode` writes. -/
def plainHeader : Header := ⟨none, Nat.pow 2 21, 0, false⟩

theorem splitExactly_append (n : Nat) (bs rest : Bytes) (h : bs.length = n) :
    splitExactly n (bs ++ rest) = .ok (bs, rest) := by
  subst h
  simp [splitExactly]

theorem header_read (maxLog : Nat) (hlog : 21 ≤ maxLog) (bs : Bytes) :
    Header.read maxLog (0x00 :: 0x58 :: bs) = .ok (plainHeader, bs) := by
  simp [Header.read, splitExactly, contentSizeWidth, dictionaryWidth, windowOf, ofLittleEndian,
    plainHeader, bind, Except.bind, pure, Except.pure, Nat.not_lt.mpr hlog]

/-! ## Blocks -/

/-- The number in the header of a raw block. -/
theorem ofBytes_rawBlock {isLast : Bool} {size : Nat} (h : size ≤ blockLimit) :
    Block.ofBytes (littleEndian 3 ((if isLast then 1 else 0) + 8 * size)) =
      ⟨isLast, .raw, size⟩ := by
  rw [blockLimit] at h
  rw [Block.ofBytes, ofLittleEndian_littleEndian (by cases isLast <;> simp <;> omega)]
  cases isLast with
  | false =>
      have hkind : 8 * size / 2 % 4 = 0 := by omega
      have hsize : 8 * size / 8 = size := by omega
      have hlast : 8 * size % 2 = 0 := by omega
      simp [hkind, hsize, hlast]
  | true =>
      have hkind : (1 + 8 * size) / 2 % 4 = 0 := by omega
      have hsize : (1 + 8 * size) / 8 = size := by omega
      have hlast : (1 + 8 * size) % 2 = 1 := by omega
      simp [hkind, hsize, hlast]

theorem block_read_rawBlock {isLast : Bool} {content : Bytes} (h : content.length ≤ blockLimit)
    (rest : Bytes) :
    Block.read (rawBlock isLast content ++ rest) =
      .ok (⟨isLast, .raw, content.length⟩, content ++ rest) := by
  rw [Block.read, rawBlock, List.append_assoc, splitExactly_append _ _ _ (length_littleEndian _ _)]
  simp only [bind, Except.bind, ofBytes_rawBlock h, pure, Except.pure]

/-- After a block there is room for another one. -/
theorem blockLimit_le_nextRoom (left : Nat) : blockLimit ≤ plainHeader.nextRoom left := by
  have hroom : blockLimit ≤ plainHeader.bufferSize := by decide
  have hnext : plainHeader.nextRoom left =
      if left < blockLimit then plainHeader.bufferSize else left := by
    have hall : plainHeader.contentSize.all (plainHeader.bufferSize < ·) = true := rfl
    simp only [Header.nextRoom, hall, true_and]
    rfl
  rw [hnext]
  split
  · exact hroom
  · omega

/-- One raw block in front of others. -/
theorem stream_rawBlock {room : Nat} {content : Bytes} (fuel length : Nat) (isLast : Bool)
    (rest : Bytes) (hcontent : content.length ≤ blockLimit) (hroom : blockLimit ≤ room) :
    ∃ room' length', blockLimit ≤ room' ∧
      stream plainHeader (fuel + 1) room length (rawBlock isLast content ++ rest) =
        if isLast then .ok (content, rest)
        else (stream plainHeader fuel room' length' rest).map fun (more, bs) =>
          (content ++ more, bs) := by
  have hmax : plainHeader.maxBlock = blockLimit := rfl
  have hsplit := splitExactly_append content.length content rest rfl
  have hmet (n : Nat) : plainHeader.isMet n = true := rfl
  by_cases hwidth : content.length = 0
  · obtain rfl := List.length_eq_zero_iff.mp hwidth
    refine ⟨room, length, hroom, ?_⟩
    cases isLast <;>
      simp [stream, bind, Except.bind, block_read_rawBlock hcontent rest, Block.width, pure,
        Except.pure]
    cases stream plainHeader fuel room length rest <;> rfl
  · refine ⟨_, length + content.length, blockLimit_le_nextRoom (room - content.length), ?_⟩
    have hlarge : ¬ plainHeader.maxBlock < content.length := by omega
    have hfull : ¬ room < content.length := by omega
    cases isLast <;>
      simp [stream, bind, Except.bind, block_read_rawBlock hcontent rest, Block.width, hlarge,
        hwidth, hfull, hsplit, Block.content, hmet, pure, Except.pure]
    cases stream plainHeader fuel (plainHeader.nextRoom (room - content.length))
      (length + content.length) rest <;> rfl

theorem stream_rawBlocks {fuel room : Nat} {contents : List Bytes} (length : Nat) (rest : Bytes)
    (hne : contents ≠ []) (hcontents : ∀ c ∈ contents, c.length ≤ blockLimit)
    (hfuel : contents.length ≤ fuel) (hroom : blockLimit ≤ room) :
    stream plainHeader fuel room length (rawBlocks contents ++ rest) =
      .ok (contents.flatten, rest) := by
  induction contents generalizing fuel room length with
  | nil => exact absurd rfl hne
  | cons content contents ih =>
      obtain ⟨fuel, rfl⟩ : ∃ k, fuel = k + 1 := ⟨fuel - 1, by simp at hfuel; omega⟩
      have hcontent := hcontents content List.mem_cons_self
      cases contents with
      | nil =>
          obtain ⟨_, _, -, heq⟩ := stream_rawBlock fuel length true rest hcontent hroom
          simpa [rawBlocks] using heq
      | cons next contents =>
          obtain ⟨room', length', hroom', heq⟩ := stream_rawBlock fuel length false
            (rawBlocks (next :: contents) ++ rest) hcontent hroom
          have hrest := ih length' (by simp) (fun c hc => hcontents c (List.mem_cons_of_mem _ hc))
            (show (next :: contents).length ≤ fuel by simpa using hfuel) hroom'
          rw [rawBlocks, List.append_assoc, heq, hrest]
          · simp [Except.map]
          · simp

/-! ## Pieces -/

theorem pieces_ne_nil (size fuel : Nat) (bs : Bytes) : pieces size fuel bs ≠ [] := by
  cases fuel with
  | zero => simp [pieces]
  | succ fuel =>
      rw [pieces_succ]
      split <;> simp

theorem length_le_of_mem_pieces {size fuel : Nat} {bs piece : Bytes} (hsize : 0 < size)
    (hfuel : bs.length ≤ fuel) (h : piece ∈ pieces size fuel bs) : piece.length ≤ size := by
  induction fuel generalizing bs with
  | zero =>
      simp only [pieces, List.mem_singleton] at h
      subst h
      omega
  | succ fuel ih =>
      rw [pieces_succ] at h
      split at h
      · obtain rfl := List.mem_singleton.mp h
        assumption
      · rcases List.mem_cons.mp h with rfl | h
        · exact List.length_take_le size bs
        · exact ih (by simp; omega) h

/-- Every block has a header of three bytes. -/
theorem length_rawBlocks (contents : List Bytes) :
    (rawBlocks contents).length = contents.flatten.length + 3 * contents.length := by
  induction contents with
  | nil => simp [rawBlocks]
  | cons content contents ih =>
      cases contents with
      | nil => simp [rawBlocks, rawBlock]; omega
      | cons next contents =>
          rw [rawBlocks]
          · simp only [List.length_cons, List.length_append, rawBlock, length_littleEndian,
              List.flatten_cons] at ih ⊢
            omega
          · simp

/-- All pieces but the last one are full. -/
theorem length_pieces_le {size fuel : Nat} {bs : Bytes} (hsize : 0 < size)
    (hfuel : bs.length ≤ fuel) : (pieces size fuel bs).length * size ≤ bs.length + size := by
  induction fuel generalizing bs with
  | zero => simp [pieces]
  | succ fuel ih =>
      rw [pieces_succ]
      split
      · simp
      · next hlarge =>
          have hrest :
              (pieces size fuel (bs.drop size)).length * size ≤ (bs.drop size).length + size :=
            ih (by simp; omega)
          simp only [List.length_drop, List.length_cons, Nat.succ_mul] at hrest ⊢
          omega

/-- A longer byte string has as many pieces or more. -/
theorem length_pieces_mono {size fuel fuel' : Nat} {bs bs' : Bytes} (hfuel : fuel ≤ fuel')
    (h : bs.length ≤ bs'.length) :
    (pieces size fuel bs).length ≤ (pieces size fuel' bs').length := by
  induction fuel generalizing fuel' bs bs' with
  | zero => exact List.length_pos_iff.mpr (pieces_ne_nil size fuel' bs')
  | succ fuel ih =>
      obtain ⟨fuel', rfl⟩ : ∃ k, fuel' = k + 1 := ⟨fuel' - 1, by omega⟩
      rw [pieces_succ]
      split
      · exact List.length_pos_iff.mpr (pieces_ne_nil size (fuel' + 1) bs')
      · next hlarge =>
          have hrest : (bs.drop size).length ≤ (bs'.drop size).length := by
            simp only [List.length_drop]
            omega
          rw [pieces_succ, if_neg (by omega), List.length_cons, List.length_cons]
          exact Nat.succ_le_succ (ih (Nat.le_of_succ_le_succ hfuel) hrest)

/-! ## Contents -/

/-- A content is read back. -/
theorem decode_encode (content : Bytes) : decode (encode content) = .ok content := by
  have hfuel : (pieces blockLimit content.length content).length ≤
      (rawBlocks (pieces blockLimit content.length content)).length := by
    rw [length_rawBlocks]
    omega
  have hroom : blockLimit ≤ plainHeader.bufferSize := by decide
  have hstream := stream_rawBlocks 0 [] (pieces_ne_nil blockLimit content.length content)
    (fun c hc => length_le_of_mem_pieces (by decide) (Nat.le_refl _) hc) hfuel hroom
  rw [List.append_nil, flatten_pieces] at hstream
  have hread : readFrame (encode content) = .ok (content, []) := by
    simp [readFrame, encode, startLength, Codec.mark, readPresent,
      header_read maxWindowLog (by decide), bind, Except.bind, isReadAtOnce, readStream,
      hstream, readChecksum, pure, Except.pure]
    simp [plainHeader, windowLimit, leastWindow, blockLimit]
  rw [decode, readFrames, hread]
  rfl

theorem length_encode (content : Bytes) :
    (encode content).length =
      6 + content.length + 3 * (pieces blockLimit content.length content).length := by
  simp only [encode, List.length_append, length_rawBlocks, flatten_pieces, Codec.mark]
  simp only [List.length_cons, List.length_nil]
  omega

/-- A longer content takes as many bytes or more. -/
theorem length_encode_mono {content content' : Bytes} (h : content.length ≤ content'.length) :
    (encode content).length ≤ (encode content').length := by
  have hpieces : (pieces blockLimit content.length content).length ≤
      (pieces blockLimit content'.length content').length := length_pieces_mono h h
  rw [length_encode, length_encode]
  omega

/-- The codec that keeps contents as they are. -/
def stored : Codec where
  encode := encode
  decode payload := (decode payload).mapError Error.message
  decode_encode content := by rw [decode_encode]; rfl
  marked content := by
    refine ⟨_, ?_, List.append_assoc ..⟩
    simp
  length_encode_le content := by
    have hpieces := length_pieces_le (by decide : 0 < blockLimit) (Nat.le_refl content.length)
    rw [length_encode]
    simp only [blockLimit] at hpieces ⊢
    omega

end MerkleStore.Zstandard
