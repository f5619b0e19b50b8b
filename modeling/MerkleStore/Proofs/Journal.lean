import Mathlib.Data.List.Forall2
import MerkleStore.Proofs.FrameCodec
import MerkleStore.Proofs.Reindex
import MerkleStore.Store

/-!
# The journal keeps the state

Every frame is read back from the front of whatever it stands before
(`Frame.decode_append`), so that whole frames at the front of a file (`Journal.Leads`) are
replayed frame by frame (`Journal.recover_eq`). A journal keeps a state if its frames hold
batches that make a state like it (`Journal.Keeps`). Every event of a store preserves this,
and what is recovered from such a file is the state with its indexes made again
(`Journal.Keeps.exists_recover`).
-/

namespace MerkleStore

/-! ## Files of frames -/

namespace Journal

/-- Each byte string is the frame of its batch of records. -/
abbrev Frames (z : Codec) (batches : List (List Record)) (frames : List Bytes) : Prop :=
  List.Forall₂ (fun batch frame => Frame.encode z batch = .ok frame) batches frames

variable {z : Codec} {bs : Bytes} {batches : List (List Record)} {frames : List Bytes} {n : Nat}
  {s s' : State} {f : Journal}

/-- Whole frames stand at the front of a byte string, which hold these batches of records
and take this number of bytes. -/
inductive Leads (z : Codec) : Bytes → List (List Record) → Nat → Prop
  | nil (bs : Bytes) : Leads z bs [] 0
  | cons {bs : Bytes} {rs : List Record} {size : Nat} {batches : List (List Record)} {n : Nat}
      (hframe : Frame.decode z bs = .ok (.whole rs size)) (h : Leads z (bs.drop size) batches n) :
      Leads z bs (rs :: batches) (size + n)

theorem Leads.le_length (h : Leads z bs batches n) : n ≤ bs.length := by
  induction h with
  | nil bs => exact Nat.zero_le _
  | cons hframe _ ih =>
      have hsize := (Frame.size_le_of_decode hframe).2
      rw [List.length_drop] at ih
      omega

/-- No frame is empty, so there are no more frames than bytes. -/
theorem Leads.length_le (h : Leads z bs batches n) : batches.length ≤ n := by
  induction h with
  | nil bs => exact Nat.zero_le _
  | cons hframe _ ih =>
      have hsize := (Frame.size_le_of_decode hframe).1
      rw [Frame.headerSize] at hsize
      rw [List.length_cons]
      omega

theorem Frames.leads (hf : Frames z batches frames) (rest : Bytes) :
    Leads z (frames.flatten ++ rest) batches frames.flatten.length := by
  induction hf with
  | nil => exact .nil _
  | cons hframe hf ih =>
      rw [List.flatten_cons, List.append_assoc, List.length_append]
      refine .cons (Frame.decode_append hframe _) ?_
      rwa [List.drop_left' rfl]

/-- Whole frames are replayed in order before what stands behind them, unless their
records are refused. -/
theorem Leads.replayFrames_add (h : Leads z bs batches n) (s : State) (fuel offset : Nat) :
    replayFrames z (batches.length + fuel) offset s bs =
      (batches.foldlM State.applyAll s).bind fun s' =>
        replayFrames z fuel (offset + n) s' (bs.drop n) := by
  induction h generalizing s offset with
  | nil bs => simp [pure, Except.pure, Except.bind]
  | @cons bs rs size batches n hframe h ih =>
      obtain ⟨hpos, hsize⟩ := Frame.size_le_of_decode hframe
      have hne : bs.isEmpty = false := by
        rw [List.isEmpty_eq_false_iff]
        rintro rfl
        cases Nat.le_trans hpos hsize
      have hfuel : (rs :: batches).length + fuel = batches.length + fuel + 1 := by
        simp only [List.length_cons]
        omega
      rw [hfuel, replayFrames, hne, hframe, List.foldlM_cons]
      simp only [Bool.false_eq_true, if_false, bind]
      cases hs : s.applyAll rs with
      | error e => rfl
      | ok x => simp only [ih x, Except.bind, List.drop_drop, Nat.add_assoc]

theorem replayFrames_nil (fuel offset : Nat) (s : State) :
    replayFrames z fuel offset s [] = .ok (s, offset) := by
  cases fuel <;> rfl

theorem checkHeader_header (rest : Bytes) : checkHeader (header ++ rest) = .ok () := by
  simp [checkHeader, header, headerSize, magic, version, littleEndian, ofLittleEndian]

/-- Whole frames at the front of a file are replayed before the rest of it. -/
theorem recover_eq (hf : Frames z batches frames) (rest : Bytes) :
    ∃ fuel, rest.length ≤ fuel ∧ recover z (header ++ frames.flatten ++ rest) =
      (batches.foldlM State.applyAll .empty).bind fun s =>
        (replayFrames z fuel (headerSize + frames.flatten.length) s rest).bind fun (s, offset) =>
          s.reindex.map fun s =>
            (s, ⟨z, (header ++ frames.flatten ++ rest).take offset, offset⟩) := by
  have hlength : header.length = headerSize := rfl
  have hleads := hf.leads rest
  have hfew := hleads.length_le
  obtain ⟨fuel, hfuel⟩ : ∃ fuel, (header ++ frames.flatten ++ rest).length =
      batches.length + (rest.length + fuel) :=
    ⟨headerSize + frames.flatten.length - batches.length, by
      simp only [List.length_append, hlength]
      omega⟩
  refine ⟨rest.length + fuel, Nat.le_add_right _ _, ?_⟩
  have hdrop : (header ++ frames.flatten ++ rest).drop headerSize = frames.flatten ++ rest := by
    rw [List.append_assoc, List.drop_left' hlength]
  have hheader : checkHeader (header ++ frames.flatten ++ rest) = .ok () := by
    rw [List.append_assoc, checkHeader_header]
  rw [recover, hheader, hdrop, hfuel, hleads.replayFrames_add, List.drop_left' rfl]
  simp only [bind, Except.bind, pure, Except.pure, Except.map]
  cases batches.foldlM State.applyAll .empty <;> rfl

/-- A file that holds nothing but whole frames is recovered as a whole. -/
theorem recover_flatten (hf : Frames z batches frames) :
    recover z (header ++ frames.flatten) =
      (batches.foldlM State.applyAll .empty).bind fun s =>
        s.reindex.map fun s =>
          (s, ⟨z, header ++ frames.flatten, (header ++ frames.flatten).length⟩) := by
  obtain ⟨fuel, -, hrecover⟩ := recover_eq hf []
  have hlength : headerSize + frames.flatten.length = (header ++ frames.flatten).length := by
    rw [List.length_append]
    rfl
  simp only [List.append_nil, replayFrames_nil, hlength] at hrecover
  simp only [hrecover, Except.bind, List.take_length]

/-- The frames of a file hold batches that make a state like this one. -/
def Keeps (f : Journal) (s : State) : Prop :=
  ∃ batches frames s₀, Frames f.codec batches frames ∧ f.bytes = header ++ frames.flatten ∧
    f.offset = f.bytes.length ∧ batches.foldlM State.applyAll .empty = .ok s₀ ∧ s₀.Alike s

theorem Keeps.create (z : Codec) : (Journal.create z).Keeps .empty :=
  ⟨[], [], .empty, .nil, (List.append_nil header).symm, rfl, rfl, .refl _⟩

theorem Keeps.congr (hk : f.Keeps s) (hs : s.Alike s') : f.Keeps s' := by
  obtain ⟨batches, frames, s₀, hframes, hbytes, hoffset, hbatches, halike⟩ := hk
  exact ⟨batches, frames, s₀, hframes, hbytes, hoffset, hbatches, halike.trans hs⟩

theorem overwrite_length (bytes data : Bytes) :
    overwrite bytes bytes.length data = bytes ++ data := by
  simp [overwrite, List.drop_of_length_le]

/-- A frame more keeps the state that its records make. -/
theorem Keeps.write {rs : List Record} {frame : Bytes} {s₁ : State} (hk : f.Keeps s)
    (hframe : Frame.encode f.codec rs = .ok frame) (ha : s.applyAll rs = .ok s₁)
    (hs : s₁.Alike s') : (f.write frame).Keeps s' := by
  obtain ⟨batches, frames, s₀, hframes, hbytes, hoffset, hbatches, halike⟩ := hk
  -- the records were made for the state with its index, but fit the one without as well
  obtain ⟨s₂, hs₂, halike₂⟩ := halike.symm.applyAll ha
  have hwrite : (f.write frame).bytes = f.bytes ++ frame := by
    rw [Journal.write, hoffset, overwrite_length]
  refine ⟨batches ++ [rs], frames ++ [frame], s₂, ?_, ?_, ?_, ?_, halike₂.symm.trans hs⟩
  · exact List.rel_append hframes (.cons hframe .nil)
  · rw [hwrite, hbytes, List.append_assoc, List.flatten_append, List.flatten_singleton]
  · rw [hwrite, List.length_append, ← hoffset]
    rfl
  · simp [List.foldlM_append, hbatches, hs₂, bind, Except.bind, pure, Except.pure]

/-- What is recovered is the state with its indexes made again, and the same file. -/
theorem Keeps.exists_recover_of_reindex (hk : f.Keeps s) {p : State → Prop}
    (hs : ∀ s₀ : State, s₀.Alike s → ∃ s', s₀.reindex = .ok s' ∧ p s') :
    ∃ s', recover f.codec f.bytes = .ok (s', f) ∧ p s' := by
  obtain ⟨batches, frames, s₀, hframes, hbytes, hoffset, hbatches, halike⟩ := hk
  obtain ⟨s', hreindex, hp⟩ := hs s₀ halike
  refine ⟨s', ?_, hp⟩
  rw [hbytes, recover_flatten hframes, hbatches, ← hbytes, ← hoffset]
  simp only [Except.bind, hreindex, Except.map]

theorem Keeps.exists_recover (hk : f.Keeps s) (hs : s.Sound) :
    ∃ s', recover f.codec f.bytes = .ok (s', f) ∧ s'.Alike s ∧ s'.Sound :=
  hk.exists_recover_of_reindex fun _ halike => hs.exists_reindex halike

end Journal

end MerkleStore
