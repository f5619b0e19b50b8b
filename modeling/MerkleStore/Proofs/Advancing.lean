import MerkleStore.Proofs.Locality
import MerkleStore.Proofs.VersionedMap

/-!
# One generation more

A write that goes through puts one generation behind the others of its tree. `Store.Advanced` says
what this means to those who ask for the latest root, for what was logged and for the listing, and
which version the tree shows now. In a state that a run without a collision leads to, an operation
for which the version has an edit advances its tree by this edit, or the journal refuses the frame
(`Store.carryOut_advances`).
-/

namespace MerkleStore

namespace Store

variable {s s' : Store} {t : TreeId} {h : History} {v : Version} {U : Set Node} {e : Edit}
  {o : Operation}

/-- Without a root the leaves of the latest version are listed. -/
theorem keysValues_latest (hv : s.Serves t h v) : s.keysValues t none = .ok v.leaves := by
  have hroot := hv.shows.root
  simp only [keysValues, latestRoot_eq hv, bind, Except.bind, pure, Except.pure, hroot]
  cases v with
  | none => rfl
  | some top =>
      have hstored : top.MadeOf s.state.nodes.stored := hv.shows.stored
      simp only [Version.hash, Option.map_some, preorder, NodeMap.nodes_preorder_hash hstored,
        NodeMap.filterMap_terminal?_subtrees]
      rfl

/-- A tree has got one more generation: it shows a version, and this operation is logged. -/
structure Advanced (s s' : Store) (t : TreeId) (h : History) (v : Version) (o : Operation) :
    Prop where
  latest : s'.latestRoot t = .ok ⟨t, h.latest.generation + 1, v.hash, .pending⟩
  shows : ∃ h', s'.Serves t h' v ∧ h'.operations = h.operations ++ [o] ∧
    h'.roots = h.roots ++ [⟨t, h.latest.generation + 1, v.hash, .pending⟩]
  logged : s'.operations t h.latest.generation (h.latest.generation + 1) = .ok [o]
  listing : s'.keysValues t none = .ok v.leaves
  others : ∀ u : TreeId, u ≠ t → s'.state.trees[u]? = s.state.trees[u]?

/-- After an edit a tree shows where it leads. -/
theorem Serves.enter (hs : s.Intact U) (hU : Set.InjOn Node.hash U) (hv : s.Serves t h e.source)
    (hf : e.Fresh) (hmade : ∀ n ∈ e.made, n ∈ U) (hev : enter (.edit t e) s = (.ok (), s')) :
    s'.Serves t (h.extend e) e.target := by
  have hs' : (Store.enter (.edit t e) s).2.Intact U := hs.enter hU hmade (hv.admits hf)
  rw [hev] at hs'
  have hstate : s'.state = { s.state with nodes := s.state.nodes.addAll e.made }.setTree t
      (h.extend e) := by
    rw [state_of_enter hev, State.after, hv.tree]
  have htree : s'.state.trees[t]? = some (h.extend e) := by
    rw [hstate, State.getElem?_setTree, if_pos rfl]
  obtain ⟨-, w, -, hw⟩ := hs'.exists_serves htree
  have hstored : e.target.MadeOf s'.state.nodes.stored := by
    rw [hstate]
    exact hs.sound.stored_target hs.within hU hmade hv.shows.stored
  have hhash : w.hash = e.target.hash := by
    rw [← hw.shows.root, History.latest_extend]
    rfl
  obtain rfl := Version.eq_of_hash s'.state.nodes.injOn_hash_stored hw.shows.stored hstored hhash
  exact hw

/-- The last operation is that of the edit, and its generation is pending. -/
theorem operations_extend (ho : h.InOrder t) (hv : s.Serves t (h.extend e) v) :
    s.operations t h.latest.generation (h.latest.generation + 1) = .ok [e.operation] := by
  have hgeneration := ho.generation_latest
  have hroots := ho.operations
  have hpending : e.operation.withStatus .pending = e.operation := by cases e <;> rfl
  rw [operations_eq hv (Nat.le_succ _) (by simp [History.extend, hgeneration]), hgeneration]
  simp only [History.extend, hroots]
  rw [List.take_of_length_le (by simp), List.take_of_length_le (by simp; omega),
    List.drop_left, List.drop_left]
  simp [Root.next, hpending]

theorem advanced_of_enter (hs : s.Intact U) (hU : Set.InjOn Node.hash U)
    (hv : s.Serves t h e.source) (hf : e.Fresh) (hmade : ∀ n ∈ e.made, n ∈ U)
    (hev : enter (.edit t e) s = (.ok (), s')) : s.Advanced s' t h e.target e.operation := by
  have hnext : h.latest.next e.target.hash =
      ⟨t, h.latest.generation + 1, e.target.hash, .pending⟩ := by
    rw [Root.next, hv.inOrder.tree_latest]
  have hv' := hv.enter hs hU hf hmade hev
  constructor
  · rw [latestRoot_eq hv', History.latest_extend, hnext]
  · exact ⟨h.extend e, hv', rfl, congrArg (h.roots ++ [·]) hnext⟩
  · exact operations_extend hv.inOrder hv'
  · exact keysValues_latest hv'
  · intro u hne
    rw [state_of_enter hev]
    exact (State.getElem?_after ..).trans (if_neg hne.symm)

/-- An operation fails as the version says, makes the edit that the version has for it, or is
refused by the journal. -/
theorem carryOut_advances (hs : s.Intact U) (hU : Set.InjOn Node.hash U) (hv : s.Serves t h v)
    (hn : ∀ n ∈ s.state.operationNodes t o, n ∈ U) :
    (∃ err, v.editFor t o = .error err ∧ carryOut t o none s = (.error err, s)) ∨
    ∃ e, v.editFor t o = .ok e ∧
      ((∃ s', carryOut t o none s = (.ok (), s') ∧ s.Advanced s' t h e.target e.operation) ∨
      ∃ err, carryOut t o none s = (.error err, s) ∧ err.refusesFrame = true ∧
        ∃ f, s.journal = some f) := by
  rw [carryOut_eq hv]
  cases he : v.editFor t o with
  | error err => exact .inl ⟨err, rfl, rfl⟩
  | ok e =>
      refine .inr ⟨e, rfl, ?_⟩
      obtain ⟨rfl, hf⟩ := Version.of_editFor he
      rw [State.operationNodes_eq hv.tree hv.shows he] at hn
      rcases enter_cases (.edit t e) s with ⟨err, herror⟩ | ⟨s', hev⟩
      · exact .inr ⟨err, herror, refusesFrame_of_enter herror⟩
      · exact .inl ⟨s', hev, advanced_of_enter hs hU hv hf hn hev⟩

end Store

/-- A run without a collision leads to an intact store, from which a call makes nodes of the same
set. -/
theorem exists_run_before {s₀ : Store} (hnew : s₀.IsNew) {steps : List Step} {c : Call}
    {later : List Step} (hc : CollisionFree (contents s₀ (steps ++ .call c :: later))) :
    ∃ s U, run s₀ steps = .ok s ∧ s.Intact U ∧ Set.InjOn Node.hash U ∧ (∀ n ∈ c.nodes s, n ∈ U) ∧
      ∀ n ∈ contents (c.perform s).2 later, n ∈ U := by
  have hU := hc.injOn_hash fun _ hn => hash_of_mem_contents hn
  obtain ⟨s', hall, -⟩ := (hnew.intact _).exists_run hU _ fun _ hn => hn
  obtain ⟨s, hrun, -⟩ := exists_run_append hall
  have hcontents := contents_append hrun (.call c :: later)
  rw [contents] at hcontents
  obtain ⟨s₁, hrun₁, hs, -⟩ := (hnew.intact _).exists_run hU steps fun n hn => by
    rw [hcontents]
    exact List.mem_append_left _ hn
  obtain rfl : s = s₁ := Except.ok.inj (hrun.symm.trans hrun₁)
  refine ⟨s, _, hrun, hs, hU, fun n hn => ?_, fun n hn => ?_⟩
  · rw [hcontents]
    exact List.mem_append_right _ (List.mem_append_left _ hn)
  · rw [hcontents]
    exact List.mem_append_right _ (List.mem_append_right _ hn)

end MerkleStore
