import MerkleStore.Proofs.Building
import MerkleStore.Proofs.Rows

/-!
# States that grow

Without any assumption on digests a state changes in three ways only: a tree starts, a
tree gets one generation more, a generation is confirmed (`State.Grows`). This keeps
nodes built from below, generations in order and their roots stored
(`State.Orderly.grows`), and the indexes of a state like that can always be made again
(`State.Orderly.exists_reindex`).
-/

namespace MerkleStore

namespace State

variable {s s' : State} {t : TreeId} {h : History} {r : Record} {rs : List Record}

/-! ## Batches that pass the check -/

theorem counts_setTree (s : State) (t : TreeId) (h : History) :
    (s.setTree t h).counts = s.counts.set t (h.roots.length, h.operations.length) := by
  funext t'
  by_cases heq : t = t'
  · simp [counts, Counts.set, heq]
  · simp [counts, Counts.set, heq, Ne.symm heq]

theorem counts_of_tree (ht : s.trees[t]? = some h) :
    s.counts t = (h.roots.length, h.operations.length) := by
  rw [counts, ht]

theorem counts_of_none (ht : s.trees[t]? = none) : s.counts t = (0, 0) := by
  rw [counts, ht]

theorem Alike.counts_eq (ha : s.Alike s') : s.counts = s'.counts := by
  funext t
  cases ht : s.trees[t]? with
  | none => rw [counts_of_none ht, counts_of_none (ha.getElem?_eq_none ht)]
  | some h =>
      obtain ⟨h', ht', hroots, hoperations⟩ := ha.exists_getElem? ht
      rw [counts_of_tree ht, counts_of_tree ht', hroots, hoperations]

/-- A record that may come next is applied, and the counts are then right. -/
theorem exists_apply_of_step {c : Counts} (hstep : s.counts.step r = .ok c) :
    ∃ s', s.apply r = .ok s' ∧ s'.counts = c := by
  cases r with
  | node n =>
      cases hstep
      exact ⟨s.addNode n, rfl, rfl⟩
  | root r =>
      cases ht : s.trees[r.tree]? with
      | none =>
          simp only [Counts.step, counts_of_none ht] at hstep
          split at hstep
          · next hg =>
              cases hstep
              exact ⟨_, apply_eq_ok.mpr (.start ht hg), counts_setTree s r.tree _⟩
          · cases hstep
      | some h =>
          simp only [Counts.step, counts_of_tree ht] at hstep
          split at hstep
          · next hg =>
              cases hstep
              refine ⟨_, apply_eq_ok.mpr (.root ht hg), (counts_setTree s r.tree _).trans ?_⟩
              simp [History.addRoot]
          · cases hstep
  | operation t g o =>
      cases ht : s.trees[t]? with
      | none =>
          simp [Counts.step, counts_of_none ht] at hstep
      | some h =>
          simp only [Counts.step, counts_of_tree ht] at hstep
          split at hstep
          · next hg =>
              cases hstep
              refine ⟨_, apply_eq_ok.mpr (.operation ht hg.1), (counts_setTree s t _).trans ?_⟩
              simp [History.addOperation]
          · cases hstep
  | status t g status =>
      cases ht : s.trees[t]? with
      | none =>
          simp [Counts.step, counts_of_none ht] at hstep
      | some h =>
          simp only [Counts.step, counts_of_tree ht] at hstep
          split at hstep
          · next hg =>
              cases hstep
              refine ⟨_, apply_eq_ok.mpr (.status ht hg), (counts_setTree s t _).trans ?_⟩
              funext t'
              simp only [Counts.set, History.updateStatus, List.length_modify]
              split
              · next heq => rw [heq, counts_of_tree ht]
              · rfl
          · cases hstep

/-- A record passes the check and is applied, and the numbers that the check has then are those of
the new state. -/
structure Takes (s : State) (r : Record) (s' : State) : Prop where
  allowed : s.counts.step r = .ok s'.counts
  applies : s.Applies r s'

/-- Records that pass the check are all taken, one after the other. -/
theorem exists_takesAll (hcheck : s.checkBatch rs = .ok ()) : ∃ s', Along Takes s rs s' := by
  obtain ⟨c, hc, -⟩ := bind_eq_ok.mp hcheck
  clear hcheck
  induction rs generalizing s with
  | nil => exact ⟨s, .nil s⟩
  | cons r rs ih =>
      rw [List.foldlM_cons] at hc
      obtain ⟨_, hstep, hrest⟩ := bind_eq_ok.mp hc
      obtain ⟨s₁, happly, rfl⟩ := exists_apply_of_step hstep
      obtain ⟨s', hs'⟩ := ih hrest
      exact ⟨s', .cons ⟨hstep, apply_eq_ok.mp happly⟩ hs'⟩

theorem applyAll_of_takesAll (htakes : Along Takes s rs s') : s.applyAll rs = .ok s' := by
  induction htakes with
  | nil s => rfl
  | cons hr hrs ih => exact applyAll_cons_eq_ok.mpr ⟨_, apply_eq_ok.mpr hr.applies, ih⟩

/-- The check has the numbers of the state that the records make. -/
theorem foldlM_step_of_takesAll (htakes : Along Takes s rs s') :
    rs.foldlM Counts.step s.counts = .ok s'.counts := by
  induction htakes with
  | nil s => rfl
  | cons hr hrs ih =>
      rw [List.foldlM_cons, hr.allowed]
      exact ih

/-- A batch that passes its check is applied to its end. -/
theorem exists_applyAll_of_checkBatch (hcheck : s.checkBatch rs = .ok ()) :
    ∃ s', s.applyAll rs = .ok s' := by
  obtain ⟨s', htakes⟩ := exists_takesAll hcheck
  exact ⟨s', applyAll_of_takesAll htakes⟩

end State

/-! ## Growth -/

/-- What every history is like: generations in order, their roots stored, and one
operation for each generation after the first that leads to its root. -/
structure History.Orderly (nodes : NodeMap) (t : TreeId) (h : History) : Prop where
  inOrder : h.InOrder t
  stored : ∀ r ∈ h.roots, ∀ top, r.node = some top → top ∈ nodes
  logged : h.operations.map Operation.root = h.roots.tail.map Root.node

theorem History.Orderly.mono {nodes nodes' : NodeMap} {t : TreeId} {h : History}
    (ho : h.Orderly nodes t) (hn : ∀ k : Hash, k ∈ nodes → k ∈ nodes') : h.Orderly nodes' t :=
  { ho with stored := fun r hr top htop => hn top (ho.stored r hr top htop) }

namespace State

variable {s s' : State} {t : TreeId} {h : History} {o : Operation}

/-- A tree has one pending generation more, made by an operation. -/
inductive Logs (s : State) (t : TreeId) (o : Operation) : State → Prop
  | intro {h : History} {ns : List Node} (u : IndexChange) (ht : s.trees[t]? = some h)
      (hg : (s.nodes.addAll ns).Grounded) (hroot : ∀ k, o.root = some k → k ∈ s.nodes.addAll ns)
      (hstatus : o.status = .pending) :
      Logs s t o ({ s with nodes := s.nodes.addAll ns }.setTree t (h.log o u))

/-- A state becomes another one by one write. -/
inductive Grows (s : State) : State → Prop
  | start {t : TreeId} (ht : s.trees[t]? = none) : Grows s (s.setTree t (.start (.empty t)))
  | log {t : TreeId} {o : Operation} {s' : State} (hl : s.Logs t o s') : Grows s s'
  | confirm {t : TreeId} {h : History} {g : Nat} (ht : s.trees[t]? = some h)
      (hg : g < h.roots.length) : Grows s (s.setTree t (h.updateStatus g .committed))

/-- Nodes are built from below and histories are orderly. -/
structure Orderly (s : State) : Prop where
  grounded : s.nodes.Grounded
  trees : ∀ (t : TreeId) (h : History), s.trees[t]? = some h → h.Orderly s.nodes t

theorem Orderly.empty : Orderly .empty where
  grounded := .empty
  trees := by simp [State.empty]

theorem Orderly.setTree {nodes : NodeMap} (ho : s.Orderly) (hg : nodes.Grounded)
    (hn : ∀ k : Hash, k ∈ s.nodes → k ∈ nodes) (hh : h.Orderly nodes t) :
    ({ s with nodes }.setTree t h).Orderly where
  grounded := hg
  trees := by
    intro t' h' ht'
    rw [getElem?_setTree] at ht'
    split at ht'
    · next heq =>
        cases ht'
        exact heq ▸ hh
    · exact (ho.trees t' h' ht').mono hn

/-- An orderly state stays so as it grows. -/
theorem Orderly.grows (ho : s.Orderly) (hg : s.Grows s') : s'.Orderly := by
  cases hg with
  | @start t ht =>
      refine ho.setTree ho.grounded (fun _ h => h) ⟨.start t, ?_, rfl⟩
      intro r hr top htop
      obtain rfl := List.mem_singleton.mp hr
      cases htop
  | log hl =>
      cases hl with
      | @intro h ns u ht hgrounded hroot =>
          have hh := ho.trees _ h ht
          have hmem : ∀ k : Hash, k ∈ s.nodes → k ∈ s.nodes.addAll ns := by
            intro k hk
            obtain ⟨n, hn⟩ := Option.isSome_iff_exists.mp
              (Std.ExtTreeMap.mem_iff_isSome_getElem?.mp hk)
            exact NodeMap.mem_of_getElem? (NodeMap.getElem?_addAll_of_some hn)
          refine ho.setTree hgrounded hmem ⟨hh.inOrder.log _ u, ?_, ?_⟩
          · intro r hr top htop
            rcases List.mem_append.mp hr with hr | hr
            · exact hmem top (hh.stored r hr top htop)
            · obtain rfl := List.mem_singleton.mp hr
              exact hroot top htop
          · rw [History.log, List.map_append, hh.logged,
              List.tail_append_of_ne_nil h.roots_ne_nil, List.map_append]
            rfl
  | @confirm t h g ht hlt =>
      have hh := ho.trees t h ht
      have hnodes := h.map_node_updateStatus g .committed
      refine ho.setTree ho.grounded (fun _ h => h) ⟨hh.inOrder.updateStatus g _, ?_, ?_⟩
      · intro r hr top htop
        have hmem : r.node ∈ h.roots.map Root.node := hnodes ▸ List.mem_map_of_mem hr
        obtain ⟨r', hr', heq⟩ := List.mem_map.mp hmem
        exact hh.stored r' hr' top (heq.trans htop)
      · rw [List.map_tail, hnodes, ← List.map_tail]
        exact hh.logged

/-- Nothing about indexes has to be orderly. -/
theorem Orderly.alike (ho : s.Orderly) (ha : s'.Alike s) : s'.Orderly where
  grounded := ha.nodes ▸ ho.grounded
  trees := by
    intro t h ht
    obtain ⟨h', ht', hr, hops⟩ := ha.exists_getElem? ht
    obtain ⟨hin, hstored, hlogged⟩ := ho.trees t h' ht'
    refine ⟨⟨hr ▸ hin.root, ?_⟩, ?_, ?_⟩
    · rw [← hr, ← hops, hin.operations]
    · rw [ha.nodes, ← hr]
      exact hstored
    · rw [← hr, ← hops, hlogged]

theorem Orderly.stored_latest (ho : s.Orderly) (ht : s.trees[t]? = some h) :
    ∀ top, h.latest.node = some top → top ∈ s.nodes :=
  (ho.trees t h ht).stored h.latest (List.getLast_mem h.roots_ne_nil)

/-- The indexes of a state like an orderly one can be made again. -/
theorem Orderly.exists_reindex {s₀ : State} (ho : s.Orderly) (ha : s₀.Alike s) :
    ∃ s', s₀.reindex = .ok s' ∧ s'.Alike s := by
  have ho₀ := ho.alike ha
  exact ⟨s₀.remadeAll, reindex_eq fun t h ht =>
    exists_indexUnder ho₀.grounded (ho₀.stored_latest ht), (alike_remadeAll s₀).trans ha⟩

end State

end MerkleStore
