import MerkleStore.Proofs.Replay

/-!
# One edit between two versions

Where a key was put in or taken out can be read off the versions before and after, so that
two edits between the same versions are one and the same (`Edit.eq_of_versions`). Histories
with the same hashes at their roots have been made by the same edits, and so have logged
the same operations (`Store.Intact.operations_eq_of_roots`).
-/

namespace MerkleStore

open MerkleStore.Tree

theorem Terminal.ofPair_inj {key value key' value' : Bytes} :
    ofPair key value = ofPair key' value' ↔ key = key' ∧ value = value' := by
  constructor
  · intro h
    exact ⟨congrArg Terminal.key h, congrArg Terminal.value h⟩
  · rintro ⟨rfl, rfl⟩
    rfl

/-- Of two trees under a fork either is beside the other. -/
theorem Tree.fill_swap (s t : Tree) (side : Side) :
    (⟨s, side⟩ : Fork).fill t = (⟨t, side.other⟩ : Fork).fill s := by
  cases side <;> rfl

namespace Edit

variable {e e' : Edit} {v v' : Version} {es es' : List Edit}

/-- Between the same versions a key comes in both times, or goes both times. -/
theorem isInsertion_eq_of_versions (hsource : e.source = e'.source)
    (htarget : e.target = e'.target) :
    e.operation.isInsertion = e'.operation.isInsertion := by
  have hgrows {e : Edit} (h : e.operation.isInsertion = true) :
      e.target.leaves.length = e.source.leaves.length + 1 :=
    (leaves_target_perm h).length_eq
  have hshrinks {e : Edit} (h : e.operation.isInsertion = false) :
      e.source.leaves.length = e.target.leaves.length + 1 :=
    (leaves_source_perm h).length_eq
  cases h : e.operation.isInsertion <;> cases h' : e'.operation.isInsertion
  · rfl
  · have := hshrinks h
    have := hgrows h'
    rw [← hsource, ← htarget] at this
    omega
  · have := hgrows h
    have := hshrinks h'
    rw [← hsource, ← htarget] at this
    omega
  · rfl

/-- Between the same versions the same leaf comes or goes. -/
theorem terminal_eq_of_versions (hsource : e.source = e'.source) (htarget : e.target = e'.target)
    (hd : e.source.Distinct) (hf : e.Fresh) : e.terminal = e'.terminal := by
  have hsame := isInsertion_eq_of_versions hsource htarget
  cases h : e.operation.isInsertion with
  | true =>
      have hmem : e.terminal ∈ e'.target.leaves :=
        htarget ▸ (leaves_target_perm h).mem_iff.mpr List.mem_cons_self
      rcases List.mem_cons.mp ((leaves_target_perm (hsame ▸ h)).mem_iff.mp hmem) with heq | hold
      · exact heq
      · exact absurd (List.mem_map_of_mem (hsource ▸ hold)) (hf.not_mem_source h)
  | false =>
      have hmem : e.terminal ∈ e'.source.leaves :=
        hsource ▸ (leaves_source_perm h).mem_iff.mpr List.mem_cons_self
      rcases List.mem_cons.mp ((leaves_source_perm (hsame ▸ h)).mem_iff.mp hmem) with heq | hkept
      · exact heq
      · have hgone := (List.nodup_cons.mp ((keys_source_perm h).nodup_iff.mp hd)).1
        exact absurd (List.mem_map_of_mem (htarget ▸ hkept)) hgone

/-- Two edits between the same versions are the same. -/
theorem eq_of_versions (hsource : e.source = e'.source) (htarget : e.target = e'.target)
    (hd : e.source.Distinct) (hf : e.Fresh) : e = e' := by
  have hinsertion := isInsertion_eq_of_versions hsource htarget
  have hterminal := terminal_eq_of_versions hsource htarget hd hf
  have hd' := distinct_target hd hf
  cases e with
  | first key value =>
      cases e' with
      | first key' value' =>
          obtain ⟨rfl, rfl⟩ := Terminal.ofPair_inj.mp hterminal
          rfl
      | beside c' path' side' key' value' => cases hsource
      | last key' value' => cases hinsertion
      | promote key' value' f' path' => cases hinsertion
  | beside c path side key value =>
      cases e' with
      | first key' value' => cases hsource
      | beside c' path' side' key' value' =>
          obtain ⟨rfl, rfl⟩ := Terminal.ofPair_inj.mp hterminal
          -- seen from the new leaf, what it was put beside is the first fork on the way up
          have hplug (c : Tree) (path : List Fork) (side : Side) :
              plug c (⟨leaf key value, side⟩ :: path) =
                plug (leaf key value) (⟨c, side.other⟩ :: path) := by
            rw [plug, plug, fill_swap]
          have htop := Option.some.inj htarget
          have hdistinct : (plug c (⟨leaf key value, side⟩ :: path)).Distinct := hd'
          rw [hplug] at hdistinct
          rw [hplug, hplug] at htop
          obtain ⟨hfork, rfl⟩ := List.cons.inj (hdistinct.path_unique htop)
          obtain ⟨rfl, hside⟩ := Fork.mk.inj hfork
          cases side <;> cases side' <;> first | rfl | cases hside
      | last key' value' => cases hinsertion
      | promote key' value' f' path' => cases hinsertion
  | last key value =>
      cases e' with
      | first key' value' => cases hinsertion
      | beside c' path' side' key' value' => cases hinsertion
      | last key' value' =>
          obtain ⟨rfl, rfl⟩ := Terminal.ofPair_inj.mp hterminal
          rfl
      | promote key' value' f' path' => cases htarget
  | promote key value f path =>
      cases e' with
      | first key' value' => cases hinsertion
      | beside c' path' side' key' value' => cases hinsertion
      | last key' value' => cases htarget
      | promote key' value' f' path' =>
          obtain ⟨rfl, rfl⟩ := Terminal.ofPair_inj.mp hterminal
          have hdistinct : (plug (leaf key value) (f :: path)).Distinct := hd
          obtain ⟨rfl, rfl⟩ := List.cons.inj (hdistinct.path_unique (Option.some.inj hsource))
          rfl

/-- Chains of edits that lead through the same versions are the same so far. -/
theorem Leads.take_eq {w w' : Version} {n : Nat} (h : Leads v es w) (h' : Leads v es' w')
    (hd : v.Distinct) (hv : (versions v es).take (n + 1) = (versions v es').take (n + 1)) :
    es.take n = es'.take n := by
  induction n generalizing v es es' with
  | zero => rfl
  | succ n ih =>
      cases es with
      | nil =>
          cases es' with
          | nil => rfl
          | cons e' es' => simp [versions] at hv
      | cons e es =>
          cases es' with
          | nil => simp [versions] at hv
          | cons e' es' =>
              obtain ⟨hsource, hf, h⟩ := h
              obtain ⟨hsource', -, h'⟩ := h'
              have hrest : (versions e.target es).take (n + 1) =
                  (versions e'.target es').take (n + 1) := (List.cons.inj hv).2
              have htarget : e.target = e'.target := (List.cons.inj hrest).1
              obtain rfl : e = e' := eq_of_versions (hsource.trans hsource'.symm) htarget
                (hsource ▸ hd) hf
              rw [List.take_succ_cons, List.take_succ_cons,
                ih h h' (distinct_target (hsource ▸ hd) hf) hrest]

end Edit

/-! ## Histories -/

open Edit

/-- Histories with the same hashes at the roots of their first generations have logged the
same operations for them. -/
theorem History.Made.operations_take_eq {nodes nodes' : NodeMap} {h h' : History} {t t' : TreeId}
    {es es' : List Edit} {v v' : Version} {U : Set Node} {n : Nat} (hm : h.Made nodes t es v)
    (hm' : h'.Made nodes' t' es' v') (hU : Set.InjOn Node.hash U) (hn : nodes.stored ⊆ U)
    (hn' : nodes'.stored ⊆ U)
    (hroots : (h.roots.take (n + 1)).map Root.node = (h'.roots.take (n + 1)).map Root.node) :
    h.operations.take n = h'.operations.take n := by
  have hversions : (versions none es).take (n + 1) = (versions none es').take (n + 1) := by
    rw [List.map_take, List.map_take, hm.roots, hm'.roots, ← List.map_take, ← List.map_take]
      at hroots
    refine List.ext_getElem? fun i => ?_
    have hi := congrArg (·[i]?) hroots
    simp only [List.getElem?_map] at hi
    cases ha : ((versions none es).take (n + 1))[i]? with
    | none =>
        rw [ha, Option.map_none, eq_comm, Option.map_eq_none_iff] at hi
        exact hi.symm
    | some a =>
        rw [ha, Option.map_some, eq_comm, Option.map_eq_some_iff] at hi
        obtain ⟨b, hb, hhash⟩ := hi
        have hstored := hm.stored_versions (List.mem_of_mem_take (List.mem_of_getElem? ha))
        have hstored' := hm'.stored_versions (List.mem_of_mem_take (List.mem_of_getElem? hb))
        rw [hb, Version.eq_of_hash hU (hstored'.mono hn') (hstored.mono hn) hhash]
  rw [hm.operations, hm'.operations, ← List.map_take, ← List.map_take,
    hm.leads.take_eq hm'.leads distinct_none hversions]

namespace Store

variable {s s' : Store} {t : TreeId} {h h' : History} {U : Set Node} {n : Nat}

/-- Two intact stores that have the same hashes at the roots of a tree up to a generation have
the same operations up to there, but for their statuses. -/
theorem Intact.operations_eq_of_roots (hs : s.Intact U) (hs' : s'.Intact U)
    (hU : Set.InjOn Node.hash U) (ht : s.state.trees[t]? = some h)
    (ht' : s'.state.trees[t]? = some h') (hn : n < h.roots.length) (hn' : n < h'.roots.length)
    (hroots : (h.roots.take (n + 1)).map Root.node = (h'.roots.take (n + 1)).map Root.node) :
    ∃ os os', s.operations t 0 n = .ok os ∧ s'.operations t 0 n = .ok os' ∧
      os.map (Operation.withStatus .pending) = os'.map (Operation.withStatus .pending) := by
  obtain ⟨es, v, hm, hv⟩ := hs.exists_serves ht
  obtain ⟨es', v', hm', hv'⟩ := hs'.exists_serves ht'
  have hlength := hv.inOrder.operations
  have hlength' := hv'.inOrder.operations
  refine ⟨_, _, operations_eq hv (Nat.zero_le n) (by omega),
    operations_eq hv' (Nat.zero_le n) (by omega), ?_⟩
  rw [map_withStatus_zipWith (by simp; omega), map_withStatus_zipWith (by simp; omega),
    hm.operations_take_eq hm' hU hs.within.stored_subset hs'.within.stored_subset hroots]

end Store

end MerkleStore
