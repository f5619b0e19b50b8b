import MerkleStore.Frame
import MerkleStore.Proofs.Packing
import MerkleStore.Proofs.RecordCodec

/-!
# Frames are read back and tell where they end

A frame has three fields: the size of its payload, the digest of its payload, and the
payload. Nothing else decides what is read at the front of a byte string
(`Frame.decode_fields`). So a frame is read back whatever stands behind it, is known to be
cut short wherever it was cut, and has the wrong checksum once its payload or its digest is
another one, unless two payloads have one digest (`Frame.Delimits`). Of the codec only one thing
matters, that it reads back what it has packed.
-/

namespace MerkleStore.Frame

variable {z : Codec} {rs : List Record} {bs frame payload : Bytes} {size : Nat}

/-! ## The fields of a frame -/

/-- The size of the payload that the first four bytes give. -/
def claimedSize (bs : Bytes) : Nat := ofLittleEndian (bs.take 4)

/-- The size of the frame that the first four bytes give. -/
def span (bs : Bytes) : Nat := headerSize + claimedSize bs

/-- The digest that is given for the payload. -/
def digestField (bs : Bytes) : Bytes := (bs.drop 4).take 32

/-- The payload, if it has the size that is given for it. -/
def payloadField (bs : Bytes) : Bytes := (bs.drop headerSize).take (claimedSize bs)

theorem decode_eq (z : Codec) (bs : Bytes) :
    decode z bs =
      if bs.length < headerSize then .ok .truncated
      else if payloadLimit < claimedSize bs then .error (.corruption (.frameSize (claimedSize bs)))
      else if bs.length < span bs then .ok .truncated
      else if (Blake3.digest (payloadField bs)).toList ≠ digestField bs then
        .ok (.wrongChecksum (span bs))
      else
        match readPayload z (payloadField bs) with
        | .error e => .error e
        | .ok records => .ok (.whole records (span bs)) := rfl

/-- The fields of a byte string that starts with a number and a digest. -/
theorem fields_append {number field : Bytes} (hnumber : number.length = 4)
    (hfield : field.length = 32) (body : Bytes) :
    claimedSize (number ++ field ++ body) = ofLittleEndian number ∧
      digestField (number ++ field ++ body) = field ∧
      payloadField (number ++ field ++ body) = body.take (ofLittleEndian number) := by
  have hsize : claimedSize (number ++ field ++ body) = ofLittleEndian number := by
    rw [claimedSize, List.append_assoc, List.take_left' hnumber]
  refine ⟨hsize, ?_, ?_⟩
  · rw [digestField, List.append_assoc, List.drop_left' hnumber, List.take_left' hfield]
  · rw [payloadField, hsize, List.drop_left' (by simp [headerSize, hnumber, hfield])]

/-- What is read where three fields stand, the first of which is the size of the last. -/
theorem decode_fields {number field body : Bytes} (hnumber : number.length = 4)
    (hfield : field.length = 32) (hsize : ofLittleEndian number = body.length)
    (hlimit : body.length ≤ payloadLimit) (rest : Bytes) :
    decode z (number ++ field ++ body ++ rest) =
      if (Blake3.digest body).toList ≠ field then .ok (.wrongChecksum (headerSize + body.length))
      else
        match readPayload z body with
        | .error e => .error e
        | .ok records => .ok (.whole records (headerSize + body.length)) := by
  obtain ⟨hclaimed, hdigest, hpayload⟩ := fields_append hnumber hfield (body ++ rest)
  rw [← List.append_assoc, hsize] at hclaimed
  rw [← List.append_assoc] at hdigest
  rw [← List.append_assoc, hsize, List.take_left' rfl] at hpayload
  have hlength : (number ++ field ++ body ++ rest).length =
      headerSize + body.length + rest.length := by
    simp only [List.length_append, hnumber, hfield, headerSize]
  rw [decode_eq, span, hclaimed, hdigest, hpayload, hlength, if_neg (by omega),
    if_neg (by omega), if_neg (by omega)]

/-- What is read as a whole frame. -/
theorem of_decode_eq_whole (h : decode z bs = .ok (.whole rs size)) :
    headerSize ≤ bs.length ∧ claimedSize bs ≤ payloadLimit ∧ span bs ≤ bs.length ∧
      (Blake3.digest (payloadField bs)).toList = digestField bs ∧
      readPayload z (payloadField bs) = .ok rs ∧ size = span bs := by
  rw [decode_eq] at h
  split at h
  · cases h
  · next hheader =>
      split at h
      · cases h
      · next hlimit =>
          split at h
          · cases h
          · next hspan =>
              split at h
              · cases h
              · next hdigest =>
                  cases hread : readPayload z (payloadField bs) with
                  | error e =>
                      rw [hread] at h
                      cases h
                  | ok records =>
                      rw [hread] at h
                      cases h
                      exact ⟨Nat.not_lt.mp hheader, Nat.not_lt.mp hlimit, Nat.not_lt.mp hspan,
                        Decidable.not_not.mp hdigest, rfl, rfl⟩

theorem size_le_of_decode (h : decode z bs = .ok (.whole rs size)) :
    headerSize ≤ size ∧ size ≤ bs.length := by
  obtain ⟨-, -, hspan, -, -, rfl⟩ := of_decode_eq_whole h
  exact ⟨Nat.le_add_right _ _, hspan⟩

/-- A whole frame is read from its own bytes, whatever stands behind them. -/
theorem decode_take_append (h : decode z bs = .ok (.whole rs size)) (rest : Bytes) :
    decode z (bs.take size ++ rest) = .ok (.whole rs size) := by
  obtain ⟨hheader, hlimit, hspan, hdigest, hread, rfl⟩ := of_decode_eq_whole h
  have hnumber : (bs.take 4).length = 4 := by
    rw [headerSize] at hheader
    rw [List.length_take]
    omega
  have hfield : (digestField bs).length = 32 := by
    rw [headerSize] at hheader
    rw [digestField, List.length_take, List.length_drop]
    omega
  have hbody : (payloadField bs).length = claimedSize bs := by
    rw [span] at hspan
    rw [payloadField, List.length_take, List.length_drop]
    omega
  have htake : bs.take (span bs) = bs.take 4 ++ digestField bs ++ payloadField bs := by
    rw [span, List.take_add, payloadField, show headerSize = 4 + 32 from rfl, List.take_add,
      digestField]
  rw [htake, decode_fields hnumber hfield hbody.symm (hbody.symm ▸ hlimit), hdigest,
    if_neg (not_not_intro rfl), hread, hbody]
  rfl

/-! ## Frames around payloads -/

theorem length_wrap (payload : Bytes) : (wrap payload).length = headerSize + payload.length := by
  simp [wrap, headerSize, (Blake3.digest payload).length_eq]
  omega

theorem take_four_wrap (payload : Bytes) :
    (wrap payload).take 4 = littleEndian 4 payload.length := by
  rw [wrap, List.append_assoc, List.take_left' (length_littleEndian 4 payload.length)]

theorem drop_four_wrap (payload : Bytes) :
    (wrap payload).drop 4 = (Blake3.digest payload).toList ++ payload := by
  rw [wrap, List.append_assoc, List.drop_left' (length_littleEndian 4 payload.length)]

theorem take_headerSize_wrap (payload : Bytes) :
    (wrap payload).take headerSize =
      littleEndian 4 payload.length ++ (Blake3.digest payload).toList := by
  rw [wrap, List.take_left' (by simp [headerSize, (Blake3.digest payload).length_eq])]

theorem drop_headerSize_wrap (payload : Bytes) : (wrap payload).drop headerSize = payload := by
  rw [wrap, List.drop_left' (by simp [headerSize, (Blake3.digest payload).length_eq])]

theorem ofLittleEndian_size (hlimit : payload.length ≤ payloadLimit) :
    ofLittleEndian (littleEndian 4 payload.length) = payload.length :=
  ofLittleEndian_littleEndian (Nat.lt_of_le_of_lt hlimit (by decide))

/-- A frame is as long as it says, and its digest is that of its payload. -/
theorem fields_wrap (hlimit : payload.length ≤ payloadLimit) (rest : Bytes) :
    claimedSize (wrap payload ++ rest) = payload.length ∧
      digestField (wrap payload ++ rest) = (Blake3.digest payload).toList ∧
      payloadField (wrap payload ++ rest) = payload := by
  have hfields := fields_append (length_littleEndian 4 payload.length)
    (Blake3.digest payload).length_eq (payload ++ rest)
  rwa [ofLittleEndian_size hlimit, List.take_left' rfl, ← List.append_assoc] at hfields

/-- A payload that can be read is read from the front of whatever its frame stands before. -/
theorem decode_wrap (hlimit : payload.length ≤ payloadLimit)
    (hread : readPayload z payload = .ok rs) (rest : Bytes) :
    decode z (wrap payload ++ rest) = .ok (.whole rs (wrap payload).length) := by
  rw [length_wrap, wrap, decode_fields (length_littleEndian 4 _) (Blake3.digest payload).length_eq
    (ofLittleEndian_size hlimit) hlimit, if_neg (by simp), hread]

/-- A frame without its last bytes is cut short, whatever its payload is. -/
theorem decode_take_wrap (hlimit : payload.length ≤ payloadLimit) {n : Nat}
    (hn : n < (wrap payload).length) : decode z ((wrap payload).take n) = .ok .truncated := by
  have hlong := length_wrap payload
  have hshort : ((wrap payload).take n).length = n := by
    rw [List.length_take, Nat.min_eq_left (Nat.le_of_lt hn)]
  rw [decode_eq, hshort]
  by_cases hheader : n < headerSize
  · rw [if_pos hheader]
  · have hsize : claimedSize ((wrap payload).take n) = payload.length := by
      have hwhole := (fields_wrap hlimit []).1
      have hfour : min 4 n = 4 := by
        simp only [headerSize] at hheader
        omega
      rwa [List.append_nil, claimedSize, ← hfour, ← List.take_take] at hwhole
    rw [if_neg hheader, hsize, span, hsize, if_neg (by omega), if_pos (by omega)]

/-! ## Frames of records -/

/-- Records are written if their numbers fit and their payload is not too large. -/
theorem encode_eq_ok_iff : encode z rs = .ok frame ↔
    (rs.length < Record.wordBound ∧ ∀ r ∈ rs, r.Fits) ∧
      (z.encode (Record.writeList rs)).length ≤ payloadLimit ∧
      frame = wrap (z.encode (Record.writeList rs)) := by
  rw [encode]
  split
  · next hfits =>
      dsimp only
      split
      · next hlarge => simp [hfits, Nat.not_le.mpr hlarge]
      · next hsmall => simp [and_iff_right hfits, Nat.not_lt.mp hsmall, eq_comm]
  · next hfits => simp [hfits]

/-- What is known about the payload of a frame. -/
theorem of_encode (h : encode z rs = .ok frame) :
    ∃ payload, frame = wrap payload ∧ payload.length ≤ payloadLimit ∧
      readPayload z payload = .ok rs := by
  obtain ⟨⟨hlength, hfits⟩, hlimit, rfl⟩ := encode_eq_ok_iff.mp h
  refine ⟨_, rfl, hlimit, ?_⟩
  simp only [readPayload, z.decode_encode, Record.readList_writeList hlength hfits]

/-- A frame is read back from the front of whatever it stands before. -/
theorem decode_append (h : encode z rs = .ok frame) (rest : Bytes) :
    decode z (frame ++ rest) = .ok (.whole rs frame.length) := by
  obtain ⟨payload, rfl, hlimit, hread⟩ := of_encode h
  exact decode_wrap hlimit hread rest

/-- A frame without its last bytes is cut short. -/
theorem decode_take (h : encode z rs = .ok frame) {n : Nat} (hn : n < frame.length) :
    decode z (frame.take n) = .ok .truncated := by
  obtain ⟨payload, rfl, hlimit, -⟩ := of_encode h
  exact decode_take_wrap hlimit hn

theorem length_pos (h : encode z rs = .ok frame) : 0 < frame.length := by
  obtain ⟨payload, rfl, -⟩ := of_encode h
  rw [length_wrap, headerSize]
  omega

/-! ## Frames in front of, without and instead of other bytes -/

/-- Two byte strings with one digest. -/
def Collides (a b : Bytes) : Prop := a ≠ b ∧ Blake3.digest a = Blake3.digest b

instance (a b : Bytes) : Decidable (Collides a b) :=
  inferInstanceAs (Decidable (_ ∧ _))

/-- A byte string tells by itself where the frame of some records ends and whether it is
whole and unchanged. -/
structure Delimits (z : Codec) (frame : Bytes) (rs : List Record) : Prop where
  /-- The frame is read back, whatever stands behind it. -/
  whole : ∀ rest, decode z (frame ++ rest) = .ok (.whole rs frame.length)
  /-- It is cut short if any of its bytes are missing at the end. -/
  truncated : ∀ front, front <+: frame → front ≠ frame → decode z front = .ok .truncated
  /-- With another digest in it the checksum is wrong. -/
  digest : ∀ field rest : Bytes, field.length = 32 → field ≠ digestField frame →
    decode z (frame.take 4 ++ field ++ frame.drop headerSize ++ rest) =
      .ok (.wrongChecksum frame.length)
  /-- With another payload of the same size it is wrong as well, or the payloads collide. -/
  payload : ∀ body rest : Bytes, body.length = (frame.drop headerSize).length →
    body ≠ frame.drop headerSize →
      decode z (frame.take headerSize ++ body ++ rest) = .ok (.wrongChecksum frame.length) ∨
        Collides (frame.drop headerSize) body

theorem delimits_wrap (hlimit : payload.length ≤ payloadLimit)
    (hread : readPayload z payload = .ok rs) : Delimits z (wrap payload) rs where
  whole := decode_wrap hlimit hread
  truncated := by
    intro front hfront hne
    have hshort : front.length < (wrap payload).length :=
      Nat.lt_of_le_of_ne hfront.length_le fun heq => hne (hfront.eq_of_length heq)
    rw [List.prefix_iff_eq_take.mp hfront]
    exact decode_take_wrap hlimit hshort
  digest := by
    intro field rest hfield hne
    rw [digestField, drop_four_wrap, List.take_left' (Blake3.digest payload).length_eq] at hne
    rw [take_four_wrap, drop_headerSize_wrap, length_wrap, decode_fields
      (length_littleEndian 4 _) hfield (ofLittleEndian_size hlimit) hlimit, if_pos hne.symm]
  payload := by
    intro body rest hlength hne
    rw [drop_headerSize_wrap] at hlength hne ⊢
    by_cases hdigest : Blake3.digest body = Blake3.digest payload
    · exact .inr ⟨hne.symm, hdigest.symm⟩
    · left
      have hsize : ofLittleEndian (littleEndian 4 payload.length) = body.length := by
        rw [ofLittleEndian_size hlimit, hlength]
      rw [take_headerSize_wrap, length_wrap, decode_fields (length_littleEndian 4 _)
        (Blake3.digest payload).length_eq hsize (hlength ▸ hlimit), hlength,
        if_pos fun heq => hdigest (Bytes32.ext heq)]

/-- Every frame that is written tells where it ends and whether it is whole and unchanged. -/
theorem delimits_of_encode (z : Codec) (rs : List Record) (frame : Bytes)
    (h : encode z rs = .ok frame) : Delimits z frame rs := by
  obtain ⟨payload, rfl, hlimit, hread⟩ := of_encode h
  exact delimits_wrap hlimit hread

/-- Records of every kind, with and without the values that may be absent. -/
def sampleRecords : List Record :=
  let t : TreeId := ⟨.replicate 7⟩
  let h : Hash := ⟨.replicate 5⟩
  [.node (.terminal ⟨h, [1], [10]⟩), .node (.internal ⟨⟨.replicate 6⟩, h, h⟩),
    .root ⟨t, 1, some h, .committed⟩, .root ⟨t, 2, none, .pending⟩,
    .operation t 1 (.insertion ⟨h, [1], [10], some h, some .left, .pending⟩),
    .operation t 1 (.insertion ⟨h, [], [], none, none, .committed⟩),
    .operation t 2 (.deletion ⟨none, [1], .pending⟩),
    .status t 18446744073709551615 .committed]

/-- The records of every kind have a frame, which delimits itself. -/
theorem delimits_of_sampleRecords :
    ∃ frame, encode sampleCodec sampleRecords = .ok frame ∧
      Delimits sampleCodec frame sampleRecords := by
  have hfits : sampleRecords.length < Record.wordBound ∧ ∀ r ∈ sampleRecords, r.Fits := by
    decide +kernel
  have hsmall :
      (sampleCodec.encode (Record.writeList sampleRecords)).length ≤ payloadLimit := by
    decide +kernel
  have hencode := encode_eq_ok_iff.mpr ⟨hfits, hsmall, rfl⟩
  exact ⟨_, hencode, delimits_of_encode sampleCodec sampleRecords _ hencode⟩

end MerkleStore.Frame
