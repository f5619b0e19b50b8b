import MerkleStore.Proofs.Recovery

/-!
# Damage before the last frame

A frame with frames behind it is damaged in one of its three fields (`Frame.Altered`).
Its digest is then not the one of its payload any more, unless two payloads have one
digest (`Frame.Altered.digest_ne`). So a file with such a frame is refused and stays as
it is, with one exception (`Journal.recover_altered`): where the damaged length field
makes the frame reach to the very end of the file (`Frame.ClosesFile`), it is taken for
a frame that was cut short, and everything from there on is lost.
-/

namespace MerkleStore

/-- A byte string is spelled by the number it spells. -/
theorem littleEndian_ofLittleEndian (bs : Bytes) :
    littleEndian bs.length (ofLittleEndian bs) = bs := by
  induction bs with
  | nil => rfl
  | cons b bs ih =>
      have hb : b.toNat < 256 := b.toNat_lt
      have hmod : (b.toNat + 256 * ofLittleEndian bs) % 256 = b.toNat := by omega
      have hdiv : (b.toNat + 256 * ofLittleEndian bs) / 256 = ofLittleEndian bs := by omega
      rw [List.length_cons, littleEndian, ofLittleEndian, hmod, hdiv, ih, UInt8.ofNat_toNat]

namespace Frame

/-- A frame with other bytes in one of its three fields. -/
inductive Altered (frame : Bytes) : Bytes → Prop
  | size (number : Bytes) (hlength : number.length = 4) (hne : number ≠ frame.take 4) :
      Altered frame (number ++ frame.drop 4)
  | digest (field : Bytes) (hlength : field.length = 32) (hne : field ≠ digestField frame) :
      Altered frame (frame.take 4 ++ field ++ frame.drop headerSize)
  | payload (payload : Bytes) (hlength : payload.length = (frame.drop headerSize).length)
      (hne : payload ≠ frame.drop headerSize) :
      Altered frame (frame.take headerSize ++ payload)

/-- The frame that starts here ends where the bytes end, if its length field is right. -/
def ClosesFile (bs : Bytes) : Prop := span bs = bs.length ∧ claimedSize bs ≤ payloadLimit

instance (bs : Bytes) : Decidable (ClosesFile bs) := inferInstanceAs (Decidable (_ ∧ _))

variable {z : Codec} {rs : List Record} {frame altered payload : Bytes}

/-- An altered frame still has three fields of their sizes, and one of them is another. -/
theorem Altered.exists_fields (ha : Altered (wrap payload) altered) :
    ∃ number field body, altered = number ++ field ++ body ∧ number.length = 4 ∧
      field.length = 32 ∧ body.length = payload.length ∧
      ((field = (Blake3.digest payload).toList ∧ body = payload ∧
          number ≠ littleEndian 4 payload.length) ∨
        (number = littleEndian 4 payload.length ∧ body = payload ∧
          field ≠ (Blake3.digest payload).toList) ∨
        (number = littleEndian 4 payload.length ∧ field = (Blake3.digest payload).toList ∧
          body ≠ payload)) := by
  have hnumber := length_littleEndian 4 payload.length
  have hdigest := (Blake3.digest payload).length_eq
  cases ha with
  | size number hlength hne =>
      rw [take_four_wrap] at hne
      refine ⟨number, _, _, ?_, hlength, hdigest, rfl, .inl ⟨rfl, rfl, hne⟩⟩
      rw [drop_four_wrap, List.append_assoc]
  | digest field hlength hne =>
      rw [digestField, drop_four_wrap, List.take_left' hdigest] at hne
      refine ⟨_, field, _, ?_, hnumber, hlength, rfl, .inr (.inl ⟨rfl, rfl, hne⟩)⟩
      rw [take_four_wrap, drop_headerSize_wrap]
  | payload body hlength hne =>
      rw [drop_headerSize_wrap] at hlength hne
      refine ⟨_, _, body, ?_, hnumber, hdigest, hlength, .inr (.inr ⟨rfl, rfl, hne⟩)⟩
      rw [take_headerSize_wrap]

theorem Altered.length_eq (ha : Altered frame altered) (h : encode z rs = .ok frame) :
    altered.length = frame.length := by
  obtain ⟨payload, rfl, -⟩ := of_encode h
  obtain ⟨number, field, body, rfl, hnumber, hfield, hbody, -⟩ := ha.exists_fields
  simp only [List.length_append, length_wrap, headerSize]
  omega

/-- A frame that was altered does not have the digest of its payload. -/
theorem Altered.digest_ne (ha : Altered frame altered) (h : encode z rs = .ok frame) {rest : Bytes}
    (hc : ¬ Collides (payloadField frame) (payloadField (altered ++ rest)))
    (hspan : span (altered ++ rest) ≤ (altered ++ rest).length) :
    (Blake3.digest (payloadField (altered ++ rest))).toList ≠ digestField (altered ++ rest) := by
  obtain ⟨payload, rfl, hlimit, -⟩ := of_encode h
  have hold : payloadField (wrap payload) = payload := by
    simpa using (fields_wrap hlimit []).2.2
  obtain ⟨number, field, body, rfl, hnumber, hfield, hbody, hother⟩ := ha.exists_fields
  obtain ⟨hsize, hdigest, hpayload⟩ := fields_append hnumber hfield (body ++ rest)
  rw [← List.append_assoc] at hsize hdigest hpayload
  have hnumber' := ofLittleEndian_size hlimit
  rw [hold, hpayload] at hc
  rw [hpayload, hdigest]
  rw [span, hsize] at hspan
  intro hsame
  -- one digest, so one payload
  have hunique (hd : field = (Blake3.digest payload).toList) :
      (body ++ rest).take (ofLittleEndian number) = payload := by
    by_contra hdiffers
    exact hc ⟨Ne.symm hdiffers, (Bytes32.ext (hsame.trans hd)).symm⟩
  rcases hother with ⟨hd, rfl, hne⟩ | ⟨rfl, rfl, hne⟩ | ⟨rfl, hd, hne⟩
  · -- and one size, and so one number
    have hlong := congrArg List.length (hunique hd)
    simp only [List.length_take, List.length_append, headerSize] at hlong hspan
    have hvalue : ofLittleEndian number = body.length := by omega
    refine hne ?_
    rw [← hvalue, ← hnumber, littleEndian_ofLittleEndian]
  · rw [hnumber', List.take_left' rfl] at hsame
    exact hne hsame.symm
  · have hwhole := hunique hd
    rw [hnumber', List.take_left' hbody] at hwhole
    exact hne hwhole

/-- An altered frame is not read as a whole one. -/
theorem Altered.decode_eq (ha : Altered frame altered) (h : encode z rs = .ok frame) {rest : Bytes}
    (hc : ¬ Collides (payloadField frame) (payloadField (altered ++ rest))) :
    decode z (altered ++ rest) =
      if payloadLimit < claimedSize (altered ++ rest) then
        .error (.corruption (.frameSize (claimedSize (altered ++ rest))))
      else if (altered ++ rest).length < span (altered ++ rest) then .ok .truncated
      else .ok (.wrongChecksum (span (altered ++ rest))) := by
  have hlong : headerSize ≤ (altered ++ rest).length := by
    obtain ⟨payload, rfl, -⟩ := of_encode h
    rw [List.length_append, ha.length_eq h, length_wrap]
    omega
  rw [Frame.decode_eq, if_neg (Nat.not_lt.mpr hlong)]
  by_cases hspan : (altered ++ rest).length < span (altered ++ rest)
  · simp only [hspan, if_true]
  · simp only [hspan, if_false, if_pos (ha.digest_ne h hc (Nat.not_lt.mp hspan))]

end Frame

namespace Journal

open MerkleStore.Frame

/-- What is in a file once somebody has tried to open it. -/
def afterOpening (z : Codec) (bytes : Bytes) : Bytes :=
  match recover z bytes with
  | .ok (_, f) => f.bytes
  | .error _ => bytes

variable {z : Codec} {batches later : List (List Record)} {before after : List Bytes}
  {rs : List Record} {frame altered : Bytes}

/-- Behind an altered frame the next one is found, or the size tells that something is
wrong, unless the file seems to end with the altered frame. -/
theorem tailError?_altered (hframe : Frame.encode z rs = .ok frame) (hafter : Frames z later after)
    (hne : after ≠ []) (ha : Altered frame altered)
    (hc : ¬ Collides (payloadField frame) (payloadField (altered ++ after.flatten)))
    (offset : Nat) :
    tailError? z offset (altered ++ after.flatten) = none ↔
      ClosesFile (altered ++ after.flatten) := by
  -- the next frame stands somewhere behind the first byte
  have hwithin : isWithin z (altered ++ after.flatten).tail = true := by
    cases hafter with
    | nil => exact absurd rfl hne
    | @cons batch next _ frames hnext hframes =>
        obtain ⟨b, bs, rfl⟩ := List.exists_cons_of_length_pos
          (ha.length_eq hframe ▸ length_pos hframe)
        exact isWithin_append hnext bs _
  have hdecode := ha.decode_eq hframe hc
  rw [tailError?, ClosesFile]
  by_cases hlimit : payloadLimit < claimedSize (altered ++ after.flatten)
  · rw [if_pos hlimit] at hdecode
    simp only [hdecode, reduceCtorEq, false_iff]
    omega
  · rw [if_neg hlimit] at hdecode
    by_cases hspan : (altered ++ after.flatten).length < span (altered ++ after.flatten)
    · rw [if_pos hspan] at hdecode
      simp only [hdecode, hwithin, if_true, reduceCtorEq, false_iff]
      omega
    · rw [if_neg hspan] at hdecode
      simp only [hdecode, ite_eq_right_iff, reduceCtorEq, imp_false]
      omega

/-- A file in which a frame before the last was altered is refused and stays as it is,
unless its length field makes it reach to the end of the file. Then all from there on is
lost. -/
theorem recover_altered (hbefore : Frames z batches before) (hframe : Frame.encode z rs = .ok frame)
    (hafter : Frames z later after) (hne : after ≠ []) (ha : Altered frame altered)
    (hc : ¬ Collides (payloadField frame) (payloadField (altered ++ after.flatten))) :
    let damaged := altered ++ after.flatten
    let file := header ++ before.flatten ++ damaged
    if ClosesFile damaged then recover z file = recover z (header ++ before.flatten)
    else (∃ e, recover z file = .error e) ∧ afterOpening z file = file := by
  intro damaged file
  have htail := tailError?_altered hframe hafter hne ha hc (header ++ before.flatten).length
  have hwhole : ∀ rs size, Frame.decode z damaged ≠ .ok (.whole rs size) := by
    intro rs size
    rw [ha.decode_eq hframe hc]
    split_ifs <;> simp
  have hdamaged : damaged ≠ [] := by
    refine List.ne_nil_of_length_pos ?_
    have hpos := length_pos hframe
    rw [← ha.length_eq hframe] at hpos
    simp only [damaged, List.length_append]
    omega
  have hrecover := recover_append hbefore hdamaged hwhole
  split_ifs with hcloses
  · rw [htail.mpr hcloses] at hrecover
    exact hrecover
  · obtain ⟨e, he⟩ := Option.ne_none_iff_exists'.mp fun h => hcloses (htail.mp h)
    rw [he] at hrecover
    have hrefused : ∃ e', recover z file = .error e' := by
      cases hbatches : batches.foldlM State.applyAll .empty with
      | error e' => exact ⟨e', by rw [hrecover, hbatches]; rfl⟩
      | ok s => exact ⟨e, by rw [hrecover, hbatches]; rfl⟩
    refine ⟨hrefused, ?_⟩
    obtain ⟨e', he'⟩ := hrefused
    rw [afterOpening, he']

/-! ### A small file -/

/-- The records of a small file: a tree starts, and its first generation is confirmed. -/
def sampleBatches : List (List Record) :=
  [[.root (.empty ⟨.replicate 7⟩)], [.status ⟨.replicate 7⟩ 0 .committed]]

/-- The frames of a small file. -/
def sampleFrame (i : Nat) : Bytes :=
  Frame.wrap (sampleCodec.encode (Record.writeList (sampleBatches.getD i [])))

theorem encode_sampleFrame {i : Nat} (hi : i < 2) :
    Frame.encode sampleCodec (sampleBatches.getD i []) = .ok (sampleFrame i) := by
  revert i
  decide +kernel

/-- Without the checksum of its first frame the small file is refused. -/
theorem recover_without_checksum :
    let altered := (sampleFrame 0).take 4 ++ List.replicate 32 0 ++
      (sampleFrame 0).drop Frame.headerSize
    let file := header ++ altered ++ sampleFrame 1
    Altered (sampleFrame 0) altered ∧
      ¬ Collides (payloadField (sampleFrame 0)) (payloadField (altered ++ sampleFrame 1)) ∧
      (∃ e, recover sampleCodec file = .error e) ∧ afterOpening sampleCodec file = file := by
  intro altered file
  have ha : Altered (sampleFrame 0) altered :=
    .digest (List.replicate 32 0) List.length_replicate (by decide +kernel)
  have hc : ¬ Collides (payloadField (sampleFrame 0))
      (payloadField (altered ++ sampleFrame 1)) := by
    decide +kernel
  have hopen : ¬ ClosesFile (altered ++ sampleFrame 1) := by decide +kernel
  have hsecond : Frames sampleCodec [sampleBatches.getD 1 []] [sampleFrame 1] :=
    .cons (encode_sampleFrame Nat.one_lt_two) .nil
  have hflat : [sampleFrame 1].flatten = sampleFrame 1 := List.flatten_singleton
  clear_value altered
  have hrefused := recover_altered (.nil : Frames sampleCodec [] [])
    (encode_sampleFrame Nat.two_pos) hsecond (List.cons_ne_nil _ _) ha (by rwa [hflat])
  rw [hflat, if_neg hopen] at hrefused
  exact ⟨ha, hc, hrefused⟩

/-- A length that reaches to the end of the small file makes both frames get lost. -/
theorem afterOpening_overlong :
    let altered := littleEndian 4 ((sampleFrame 0).length + (sampleFrame 1).length -
      Frame.headerSize) ++ (sampleFrame 0).drop 4
    let file := header ++ altered ++ sampleFrame 1
    Frames sampleCodec sampleBatches [sampleFrame 0, sampleFrame 1] ∧
      Altered (sampleFrame 0) altered ∧
      ¬ Collides (payloadField (sampleFrame 0)) (payloadField (altered ++ sampleFrame 1)) ∧
      (recover sampleCodec file).isOk ∧ afterOpening sampleCodec file = header := by
  have hframes : Frames sampleCodec sampleBatches [sampleFrame 0, sampleFrame 1] :=
    .cons (encode_sampleFrame Nat.two_pos) (.cons (encode_sampleFrame Nat.one_lt_two) .nil)
  refine ⟨hframes, .size _ rfl (by decide +kernel), ?_⟩
  decide +kernel

end Journal

end MerkleStore
