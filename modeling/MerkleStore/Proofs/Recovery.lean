import MerkleStore.Proofs.Journal

/-!
# What stands behind the last whole frame

A file that starts with whole frames is recovered as far as they go, or not at all:
whatever stands behind them and is no whole frame itself is cut off, unless it tells
that more is wrong than that one frame was cut short (`Journal.tailError?`). Which of
the two it is depends on that rest alone (`Journal.recover_append`).
-/

namespace MerkleStore

/-! ## Frames inside other bytes -/

namespace Frame

variable {z : Codec} {rs : List Record} {frame : Bytes}

/-- A frame is found at the start of whatever it stands before. -/
theorem isAtStart_append (h : encode z rs = .ok frame) (rest : Bytes) :
    isAtStart z (frame ++ rest) = true := by
  have hdecode := decode_append h rest
  obtain ⟨-, -, rfl⟩ := encode_eq_ok_iff.mp h
  -- a payload starts with the mark and does not end there
  obtain ⟨more, hmore, hmark⟩ := z.marked (Record.writeList rs)
  have hlong : headerSize ≤ (wrap (z.encode (Record.writeList rs))).length := by
    rw [length_wrap]
    omega
  have hdrop : (wrap (z.encode (Record.writeList rs)) ++ rest).drop headerSize =
      Codec.mark ++ (more ++ rest) := by
    rw [List.drop_append_of_le_length hlong, drop_headerSize_wrap, hmark, List.append_assoc]
  have hlength : Codec.mark.length = 4 := rfl
  rw [isAtStart, hdecode, ← List.drop_drop, hdrop, List.take_left' hlength,
    List.drop_left' hlength]
  simp [hmore]

/-- A frame is found wherever it stands. -/
theorem isWithin_append (h : encode z rs = .ok frame) (front rest : Bytes) :
    isWithin z (front ++ (frame ++ rest)) = true := by
  induction front with
  | nil =>
      have hstart := isAtStart_append h rest
      cases hbytes : frame ++ rest with
      | nil =>
        rw [hbytes] at hstart
        cases hstart
      | cons b bs =>
          rw [hbytes] at hstart
          simp [isWithin, hstart]
  | cons b front ih => simp [isWithin, ih]

end Frame

/-! ## Files that end with something else -/

namespace Journal

variable {z : Codec} {batches : List (List Record)} {frames : List Bytes} {rest : Bytes}

/-- Why a file is not recovered that ends with `rest` at `offset`, which does not start
with a whole frame. -/
def tailError? (z : Codec) (offset : Nat) (rest : Bytes) : Option Error :=
  match Frame.decode z rest with
  | .error e => some e
  | .ok .truncated =>
      if Frame.isWithin z rest.tail then some (.corruption (.overrun offset)) else none
  | .ok (.wrongChecksum size) =>
      if size < rest.length then some (.corruption (.checksum offset)) else none
  | .ok (.whole _ _) => none

theorem replayFrames_tail (hne : rest ≠ [])
    (hrest : ∀ rs size, Frame.decode z rest ≠ .ok (.whole rs size)) (fuel offset : Nat)
    (s : State) :
    replayFrames z (fuel + 1) offset s rest =
      match tailError? z offset rest with
      | some e => .error e
      | none => .ok (s, offset) := by
  rw [replayFrames, List.isEmpty_eq_false_iff.mpr hne, tailError?]
  cases hd : Frame.decode z rest with
  | error e => rfl
  | ok reading =>
      cases reading with
      | whole rs size => exact absurd hd (hrest rs size)
      | truncated =>
          simp only [Bool.false_eq_true, if_false]
          split <;> rfl
      | wrongChecksum size =>
          simp only [Bool.false_eq_true, if_false]
          split <;> rfl

/-- What stands behind whole frames and is none is cut off, or nothing is recovered. -/
theorem recover_append (hf : Frames z batches frames) (hne : rest ≠ [])
    (hrest : ∀ rs size, Frame.decode z rest ≠ .ok (.whole rs size)) :
    recover z (header ++ frames.flatten ++ rest) =
      match tailError? z (header ++ frames.flatten).length rest with
      | some e => (batches.foldlM State.applyAll .empty).bind fun _ => .error e
      | none => recover z (header ++ frames.flatten) := by
  have hlength : headerSize + frames.flatten.length = (header ++ frames.flatten).length := by
    rw [List.length_append]
    rfl
  obtain ⟨fuel, hfuel, hrecover⟩ := recover_eq hf rest
  obtain ⟨fuel, rfl⟩ : ∃ k, fuel = k + 1 :=
    ⟨fuel - 1, by have := List.length_pos_iff.mpr hne; omega⟩
  simp only [hrecover, recover_flatten hf, hlength, replayFrames_tail hne hrest]
  cases tailError? z (header ++ frames.flatten).length rest with
  | some e => rfl
  | none => simp only [Except.bind, List.take_left' rfl]

end Journal

end MerkleStore
