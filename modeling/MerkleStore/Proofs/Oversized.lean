import MerkleStore.Proofs.Packing
import MerkleStore.Proofs.Writes

/-!
# Values that no frame can hold

The payload of a frame has a limit. Bytes overflow a codec if no content that holds them is packed
into less (`Codec.Overflows`). A frame with an insertion holds the value, so a value that overflows
is never written to a file: whatever a store with a file has logged went into a frame of it
(`Journal.Keeps.exists_frame`). The codec of the examples is overflowed by every value of the size
of the limit. `noise` makes such values of bytes that no codec packs well.
-/

namespace MerkleStore

/-- No content that holds these bytes is packed into a payload within the limit. -/
def Codec.Overflows (z : Codec) (bs : Bytes) : Prop :=
  ∀ content, bs <:+: content → Frame.payloadLimit < (z.encode content).length

/-! ## Frames -/

namespace Record

variable {t : TreeId} {g : Nat} {d : Insertion}

/-- The value is written down with an insertion. -/
theorem value_infix_write (t : TreeId) (g : Nat) (d : Insertion) :
    d.value <:+: write (.operation t g (.insertion d)) := by
  have hvalue : d.value <:+: writeBytes d.value := (List.suffix_append _ _).isInfix
  refine hvalue.trans (.trans ?_ (List.suffix_append _ _).isInfix)
  rw [writeOperation, List.append_assoc, List.append_assoc]
  exact List.infix_append _ _ _

theorem value_infix_writeList {rs : List Record} (h : .operation t g (.insertion d) ∈ rs) :
    d.value <:+: writeList rs :=
  (value_infix_write t g d).trans
    ((write_infix_flatMap h).trans (List.suffix_append _ _).isInfix)

end Record

/-- There is no frame for an insertion of a value that overflows. -/
theorem Codec.Overflows.encode_ne_ok {z : Codec} {t : TreeId} {g : Nat} {d : Insertion}
    (hz : z.Overflows d.value) {rs : List Record} (h : .operation t g (.insertion d) ∈ rs)
    (frame : Bytes) : Frame.encode z rs ≠ .ok frame := by
  intro hframe
  obtain ⟨-, hlimit, -⟩ := Frame.encode_eq_ok_iff.mp hframe
  exact absurd hlimit (Nat.not_le.mpr (hz _ (Record.value_infix_writeList h)))

/-! ## Files -/

namespace State

variable {s s' : State} {t : TreeId} {h : History} {o : Operation}

theorem eq_or_getElem?_of_setTree {u : TreeId} {k : History}
    (ht : (s.setTree u k).trees[t]? = some h) : (u = t ∧ k = h) ∨ s.trees[t]? = some h := by
  rw [getElem?_setTree] at ht
  split at ht
  · exact .inl ⟨‹_›, Option.some.inj ht⟩
  · exact .inr ht

/-- An operation that is logged after a record was logged before it, or the record says so. -/
theorem exists_of_apply {r : Record} (hr : s.apply r = .ok s') (ht : s'.trees[t]? = some h)
    (ho : o ∈ h.operations) :
    (∃ k, s.trees[t]? = some k ∧ o ∈ k.operations) ∨ ∃ g, r = .operation t g o := by
  cases apply_eq_ok.mp hr with
  | node n => exact .inl ⟨h, ht, ho⟩
  | start _ _ =>
      rcases eq_or_getElem?_of_setTree ht with ⟨-, rfl⟩ | ht
      · cases ho
      · exact .inl ⟨h, ht, ho⟩
  | root hk _ =>
      rcases eq_or_getElem?_of_setTree ht with ⟨rfl, rfl⟩ | ht
      · exact .inl ⟨_, hk, ho⟩
      · exact .inl ⟨h, ht, ho⟩
  | @operation u g o' k hk _ =>
      rcases eq_or_getElem?_of_setTree ht with ⟨rfl, rfl⟩ | ht
      · rcases List.mem_append.mp ho with ho | ho
        · exact .inl ⟨k, hk, ho⟩
        · exact .inr ⟨g, by rw [List.mem_singleton.mp ho]⟩
      · exact .inl ⟨h, ht, ho⟩
  | status hk _ =>
      rcases eq_or_getElem?_of_setTree ht with ⟨rfl, rfl⟩ | ht
      · exact .inl ⟨_, hk, ho⟩
      · exact .inl ⟨h, ht, ho⟩

theorem exists_of_applyAll {rs : List Record} (hr : s.applyAll rs = .ok s')
    (ht : s'.trees[t]? = some h) (ho : o ∈ h.operations) :
    (∃ k, s.trees[t]? = some k ∧ o ∈ k.operations) ∨ ∃ g, .operation t g o ∈ rs := by
  induction rs generalizing s with
  | nil =>
      cases hr
      exact .inl ⟨h, ht, ho⟩
  | cons r rs ih =>
      rw [applyAll, List.foldlM_cons] at hr
      obtain ⟨s₁, hfirst, hrest⟩ := bind_eq_ok.mp hr
      rcases ih hrest with ⟨k, hk, hlogged⟩ | ⟨g, hg⟩
      · refine (exists_of_apply hfirst hk hlogged).imp_right ?_
        rintro ⟨g, rfl⟩
        exact ⟨g, List.mem_cons_self⟩
      · exact .inr ⟨g, List.mem_cons_of_mem _ hg⟩

/-- What is logged after batches of records is said by a record of one of them. -/
theorem exists_of_batches {batches : List (List Record)}
    (hb : batches.foldlM applyAll s = .ok s') (ht : s'.trees[t]? = some h) (ho : o ∈ h.operations) :
    (∃ k, s.trees[t]? = some k ∧ o ∈ k.operations) ∨
      ∃ rs ∈ batches, ∃ g, .operation t g o ∈ rs := by
  induction batches generalizing s with
  | nil =>
      cases hb
      exact .inl ⟨h, ht, ho⟩
  | cons rs batches ih =>
      rw [List.foldlM_cons] at hb
      obtain ⟨s₁, hfirst, hrest⟩ := bind_eq_ok.mp hb
      rcases ih hrest with ⟨k, hk, hlogged⟩ | ⟨rs', hrs', hg⟩
      · exact (exists_of_applyAll hfirst hk hlogged).imp_right fun hg =>
          ⟨rs, List.mem_cons_self, hg⟩
      · exact .inr ⟨rs', List.mem_cons_of_mem _ hrs', hg⟩

end State

/-- What is logged in a state that a file keeps went into one of its frames. -/
theorem Journal.Keeps.exists_frame {f : Journal} {s : State} (hk : f.Keeps s) {t : TreeId}
    {h : History} (ht : s.trees[t]? = some h) {o : Operation} (ho : o ∈ h.operations) :
    ∃ rs frame g, Frame.encode f.codec rs = .ok frame ∧ .operation t g o ∈ rs := by
  obtain ⟨batches, frames, s₀, hframes, -, -, hbatches, halike⟩ := hk
  obtain ⟨k, hkept, -, hoperations⟩ := halike.symm.exists_getElem? ht
  rcases State.exists_of_batches hbatches hkept (hoperations ▸ ho) with
    ⟨k', hk', -⟩ | ⟨rs, hrs, g, hg⟩
  · simp [State.empty] at hk'
  · obtain ⟨i, hi, rfl⟩ := List.getElem_of_mem hrs
    have hframe := List.Forall₂.get hframes hi (hframes.length_eq ▸ hi)
    exact ⟨_, _, g, hframe, hg⟩

/-- No value that overflows the codec of a file is inserted. -/
theorem Store.Orderly.not_overflows {s : Store} (ho : s.Orderly) {z : Codec}
    (hz : s.journal.map Journal.codec = some z) {t : TreeId} {h : History}
    (ht : s.state.trees[t]? = some h) {d : Insertion} (hd : .insertion d ∈ h.operations) :
    ¬ z.Overflows d.value := by
  intro hover
  obtain ⟨f, hf, rfl⟩ := Option.map_eq_some_iff.mp hz
  obtain ⟨rs, frame, g, hframe, hg⟩ := (ho.kept f hf).exists_frame ht hd
  exact hover.encode_ne_ok hg frame hframe

/-! ## Noise -/

/-- The digests of the first numbers. -/
def noise (count : Nat) : Bytes :=
  (List.range count).flatMap fun i => (Blake3.digest (littleEndian 8 i)).toList

theorem length_noise (count : Nat) : (noise count).length = 32 * count := by
  simp [noise, List.length_flatMap, Bytes32.length_eq, Nat.mul_comm]

/-- Noise of the size of the limit. -/
def oversized : Bytes := noise (Frame.payloadLimit / 32)

theorem payloadLimit_le_length_oversized : Frame.payloadLimit ≤ oversized.length := by
  rw [oversized, length_noise]
  decide

/-- A value of the size of the limit, or a longer one, overflows the codec of the examples. -/
theorem overflows_sampleCodec {bs : Bytes} (h : Frame.payloadLimit ≤ bs.length) :
    sampleCodec.Overflows bs := by
  intro content hcontent
  have hlong : Frame.payloadLimit ≤ content.length := h.trans hcontent.length_le
  have hshort : ∀ p ∈ samplePackings, p.content.length < Frame.payloadLimit := by decide +kernel
  exact hlong.trans_lt
    (PackingTable.length_lt_length_encode fun p hp => (hshort p hp).trans_le hlong)

end MerkleStore
