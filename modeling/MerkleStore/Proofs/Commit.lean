import MerkleStore.Proofs.Draft

/-!
# Commits

A store changes in three ways only (`Event`): a tree starts, a tree is edited, a
generation is confirmed. What is written down for an event that a state admits
(`State.Admits`) passes its check and is applied, so that only the journal can refuse
it. `Store.commit_transactionFor` says that committing it has the outcome of the event
(`Store.enter`), and that of no other.
-/

namespace MerkleStore

/-- Two steps of which each may fail go through if both do. -/
theorem bind_eq_ok {ε α β : Type} {x : Except ε α} {f : α → Except ε β} {b : β} :
    (x >>= f) = .ok b ↔ ∃ a, x = .ok a ∧ f a = .ok b := by
  cases x <;> simp [bind, Except.bind]

theorem eq_ok_of_toOption {ε α : Type} {x : Except ε α} {a : α} (h : x.toOption = some a) :
    x = .ok a := by
  cases x <;> simp_all [Except.toOption]

/-! ## Nodes that are collected -/

namespace NodeMap

theorem addAll_append (nodes : NodeMap) (ms ns : List Node) :
    nodes.addAll (ms ++ ns) = (nodes.addAll ms).addAll ns :=
  List.foldl_append

/-- A node is not added where its hash is taken. -/
theorem insertIfNew_of_mem {nodes : NodeMap} {n : Node} (h : n.hash ∈ nodes) :
    nodes.insertIfNew n.hash n = nodes := by
  refine Std.ExtTreeMap.ext_getElem? fun k => ?_
  rw [Std.ExtTreeMap.getElem?_insertIfNew]
  split
  · next hk =>
      rw [Std.LawfulEqCmp.compare_eq_iff_eq] at hk
      exact absurd h hk.2
  · rfl

end NodeMap

namespace Transaction

/-- Of the nodes `ns` a transaction has collected those that were not there, `rs`. -/
structure Collects (tx : Transaction) (nodes : NodeMap) (ns rs : List Node) : Prop where
  records : tx.records = rs.map .node
  updates : tx.updates = []
  same : nodes.addAll rs = nodes.addAll ns
  present : ∀ h, h ∈ tx.staged ∨ h ∈ nodes ↔ h ∈ nodes.addAll ns

variable {tx : Transaction} {nodes : NodeMap} {ns rs : List Node}

theorem Collects.empty (nodes : NodeMap) : Transaction.empty.Collects nodes [] [] where
  records := rfl
  updates := rfl
  same := rfl
  present := by simp [Transaction.empty, NodeMap.addAll]

theorem Collects.addNode (hc : tx.Collects nodes ns rs) (n : Node) :
    ∃ rs', (tx.addNode nodes n).Collects nodes (ns ++ [n]) rs' := by
  have hadd : nodes.addAll (ns ++ [n]) = (nodes.addAll ns).insertIfNew n.hash n :=
    nodes.addAll_append ns [n]
  -- where the hash is taken neither the transaction nor the nodes change
  by_cases hmem : n.hash ∈ tx.staged ∨ n.hash ∈ nodes
  · have heq : nodes.addAll (ns ++ [n]) = nodes.addAll ns := by
      rw [hadd, NodeMap.insertIfNew_of_mem ((hc.present _).mp hmem)]
    have htx : tx.addNode nodes n = tx := by
      simp [Transaction.addNode, Std.ExtTreeMap.contains_iff_mem, hmem]
    rw [htx]
    exact ⟨rs, hc.records, hc.updates, hc.same.trans heq.symm, heq ▸ hc.present⟩
  · have htx : tx.addNode nodes n =
        { tx with staged := tx.staged.insert n.hash n, records := tx.records ++ [.node n] } := by
      simp [Transaction.addNode, Std.ExtTreeMap.contains_iff_mem, hmem]
    rw [htx]
    refine ⟨rs ++ [n], by simp [hc.records], hc.updates, ?_, fun h => ?_⟩
    · rw [NodeMap.addAll_append, NodeMap.addAll_append, hc.same]
    · rw [hadd, Std.ExtTreeMap.mem_insertIfNew, ← hc.present]
      simp only [Std.ExtTreeMap.mem_insert, Std.LawfulEqCmp.compare_eq_iff_eq]
      grind

theorem exists_collects_addNodes (nodes : NodeMap) (ns : List Node) :
    ∃ rs, (Transaction.empty.addNodes nodes ns).Collects nodes ns rs := by
  have go {tx : Transaction} {ms rs : List Node} (hc : tx.Collects nodes ms rs) :
      ∃ rs', (tx.addNodes nodes ns).Collects nodes (ms ++ ns) rs' := by
    induction ns generalizing tx ms rs with
    | nil => exact ⟨rs, by simpa [addNodes] using hc⟩
    | cons n ns ih =>
        obtain ⟨rs', hc'⟩ := hc.addNode n
        obtain ⟨rs'', hc''⟩ := ih hc'
        exact ⟨rs'', by simpa [addNodes] using hc''⟩
  exact go (.empty nodes)

end Transaction

/-! ## Histories -/

namespace History

variable {h : History} {t : TreeId} {e : Edit}

/-- Every root of a history is where its generation says, and every generation but
the first one has an operation. -/
structure InOrder (h : History) (t : TreeId) : Prop where
  root : ∀ (i : Nat) (r : Root), h.roots[i]? = some r → r.tree = t ∧ r.generation = i
  operations : h.operations.length + 1 = h.roots.length

theorem getElem?_latest (h : History) : h.roots[h.roots.length - 1]? = some h.latest := by
  rw [latest, ← List.getLast?_eq_getElem?, List.getLast?_eq_some_getLast h.roots_ne_nil]

theorem InOrder.tree_latest (ho : h.InOrder t) : h.latest.tree = t :=
  (ho.root _ _ h.getElem?_latest).1

theorem InOrder.generation_latest (ho : h.InOrder t) :
    h.latest.generation = h.operations.length := by
  have := (ho.root _ _ h.getElem?_latest).2
  have := ho.operations
  omega

/-- The history after one more edit. -/
def extend (h : History) (e : Edit) : History where
  roots := h.roots ++ [h.latest.next e.target.hash]
  operations := h.operations ++ [e.operation]
  index := h.index.apply e.change
  roots_ne_nil := by simp

@[simp] theorem latest_extend (h : History) (e : Edit) :
    (h.extend e).latest = h.latest.next e.target.hash := by
  simp [latest, extend]

/-- The history after one more operation. -/
def log (h : History) (o : Operation) (u : IndexChange) : History where
  roots := h.roots ++ [h.latest.next o.root]
  operations := h.operations ++ [o]
  index := h.index.apply u
  roots_ne_nil := by simp

theorem extend_eq_log (h : History) (e : Edit) : h.extend e = h.log e.operation e.change := by
  simp only [extend, log, e.root_operation]

theorem InOrder.log (ho : h.InOrder t) (o : Operation) (u : IndexChange) :
    (h.log o u).InOrder t where
  root := by
    intro i r hr
    have := ho.operations
    simp only [History.log, List.getElem?_append] at hr
    split at hr
    · exact ho.root i r hr
    · next hlt =>
        obtain ⟨hi, rfl⟩ := List.getElem?_eq_some_iff.mp hr
        simp only [List.length_singleton] at hi
        simp only [List.getElem_singleton, Root.next, ho.tree_latest, ho.generation_latest]
        exact ⟨trivial, by omega⟩
  operations := by simp [History.log, ho.operations]

theorem InOrder.extend (ho : h.InOrder t) (e : Edit) : (h.extend e).InOrder t :=
  h.extend_eq_log e ▸ ho.log e.operation e.change

theorem InOrder.start (t : TreeId) : (start (.empty t)).InOrder t where
  root := by
    intro i r hr
    obtain ⟨hi, rfl⟩ := List.getElem?_eq_some_iff.mp hr
    simp only [History.start, List.length_singleton] at hi
    obtain rfl : i = 0 := by omega
    exact ⟨rfl, rfl⟩
  operations := rfl

theorem getElem?_updateStatus (h : History) (g i : Nat) (status : Status) :
    ∃ f : Root → Root, (∀ r, (f r).tree = r.tree ∧ (f r).generation = r.generation ∧
        (f r).node = r.node) ∧
      (h.updateStatus g status).roots[i]? = h.roots[i]?.map f := by
  simp only [updateStatus, List.getElem?_modify]
  refine ⟨_, fun r => ?_, rfl⟩
  split
  · split <;> exact ⟨rfl, rfl, rfl⟩
  · exact ⟨rfl, rfl, rfl⟩

theorem map_node_updateStatus (h : History) (g : Nat) (status : Status) :
    (h.updateStatus g status).roots.map Root.node = h.roots.map Root.node := by
  refine List.ext_getElem? fun i => ?_
  obtain ⟨f, hf, heq⟩ := h.getElem?_updateStatus g i status
  rw [List.getElem?_map, List.getElem?_map, heq, Option.map_map]
  exact Option.map_congr fun r _ => (hf r).2.2

theorem InOrder.updateStatus (ho : h.InOrder t) (g : Nat) (status : Status) :
    (h.updateStatus g status).InOrder t where
  root := by
    intro i r hr
    obtain ⟨f, hf, heq⟩ := h.getElem?_updateStatus g i status
    rw [heq] at hr
    obtain ⟨r', hr', rfl⟩ := Option.map_eq_some_iff.mp hr
    rw [(hf r').1, (hf r').2.1]
    exact ho.root i r' hr'
  operations := by simp [History.updateStatus, ho.operations]

end History

/-! ## Batches -/

namespace State

variable {s : State} {t : TreeId} {h : History} {e : Edit}

theorem ext_trees {a b : State} (hn : a.nodes = b.nodes)
    (ht : ∀ t : TreeId, a.trees[t]? = b.trees[t]?) : a = b := by
  cases a
  cases b
  cases hn
  cases Std.ExtTreeMap.ext_getElem? fun t => ht t
  rfl

@[simp] theorem getElem?_setTree (s : State) (t : TreeId) (h : History) (t' : TreeId) :
    (s.setTree t h).trees[t']? = if t = t' then some h else s.trees[t']? := by
  simp [setTree, Std.ExtTreeMap.getElem?_insert]

@[simp] theorem setTree_setTree (s : State) (t : TreeId) (h h' : History) :
    (s.setTree t h).setTree t h' = s.setTree t h' := by
  refine ext_trees rfl fun t' => ?_
  simp only [getElem?_setTree]
  split <;> rfl

theorem foldlM_step_nodes (c : Counts) (rs : List Node) :
    (rs.map Record.node).foldlM Counts.step c = .ok c := by
  induction rs with
  | nil => rfl
  | cons r rs ih => exact ih

/-- What a record that comes in order makes of a state. -/
inductive Applies (s : State) : Record → State → Prop
  | node (n : Node) : Applies s (.node n) (s.addNode n)
  | start {r : Root} (ht : s.trees[r.tree]? = none) (hg : r.generation = 0) :
      Applies s (.root r) (s.setTree r.tree (.start r))
  | root {r : Root} {h : History} (ht : s.trees[r.tree]? = some h)
      (hg : r.generation = h.roots.length) : Applies s (.root r) (s.setTree r.tree (h.addRoot r))
  | operation {t : TreeId} {g : Nat} {o : Operation} {h : History} (ht : s.trees[t]? = some h)
      (hg : g = h.operations.length + 1) :
      Applies s (.operation t g o) (s.setTree t (h.addOperation o))
  | status {t : TreeId} {g : Nat} {status : Status} {h : History} (ht : s.trees[t]? = some h)
      (hg : g < h.roots.length) :
      Applies s (.status t g status) (s.setTree t (h.updateStatus g status))

theorem apply_eq_ok {s s' : State} {r : Record} : s.apply r = .ok s' ↔ s.Applies r s' := by
  constructor
  · intro hr
    cases r with
    | node n =>
        cases hr
        exact .node n
    | root r =>
        rw [apply] at hr
        cases ht : s.trees[r.tree]? with
        | none =>
            simp only [ht] at hr
            split at hr <;> cases hr
            next hg => exact .start ht hg
        | some h =>
            simp only [ht] at hr
            split at hr <;> cases hr
            next hg => exact .root ht hg
    | operation t g o =>
        rw [apply] at hr
        cases ht : s.trees[t]? with
        | none => simp [ht] at hr
        | some h =>
            simp only [ht] at hr
            split at hr <;> cases hr
            next hg => exact .operation ht hg
    | status t g status =>
        rw [apply] at hr
        cases ht : s.trees[t]? with
        | none => simp [ht] at hr
        | some h =>
            simp only [ht] at hr
            split at hr <;> cases hr
            next hg => exact .status ht hg
  · intro hr
    cases hr with
    | node n => rfl
    | start ht hg => simp [apply, ht, hg]
    | root ht hg => simp [apply, ht, hg]
    | operation ht hg => simp [apply, ht, hg]
    | status ht hg => simp [apply, ht, hg]

theorem applyAll_nodes (s : State) (rs : List Node) :
    s.applyAll (rs.map .node) = .ok { s with nodes := s.nodes.addAll rs } := by
  induction rs generalizing s with
  | nil => rfl
  | cons r rs ih => exact ih (s.addNode r)

theorem applyAll_append (s : State) (as bs : List Record) :
    s.applyAll (as ++ bs) = (s.applyAll as) >>= (·.applyAll bs) :=
  List.foldlM_append

theorem applyAll_cons_eq_ok {s s' : State} {r : Record} {rs : List Record} :
    s.applyAll (r :: rs) = .ok s' ↔ ∃ s₁, s.apply r = .ok s₁ ∧ s₁.applyAll rs = .ok s' :=
  bind_eq_ok

/-- New nodes, a new root and its operation make one generation more, but for the index. -/
theorem applyAll_log (ht : s.trees[t]? = some h) (ho : h.InOrder t) (ns : List Node)
    (o : Operation) :
    s.applyAll (ns.map .node ++ [.root (h.latest.next o.root),
        .operation t (h.latest.generation + 1) o]) =
      .ok ({ s with nodes := s.nodes.addAll ns }.setTree t
        ((h.addRoot (h.latest.next o.root)).addOperation o)) := by
  have hlength := ho.operations
  simp only [applyAll_append, applyAll_nodes, bind, Except.bind]
  simp [applyAll, apply, Root.next, ho.tree_latest, ho.generation_latest, ht, hlength,
    History.addRoot, History.addOperation, bind, Except.bind, pure, Except.pure]

theorem updateIndex_log (s : State) (t : TreeId) (h : History) (o : Operation) (u : IndexChange) :
    (s.setTree t ((h.addRoot (h.latest.next o.root)).addOperation o)).updateIndex t u =
      s.setTree t (h.log o u) := by
  simp [updateIndex, History.log, History.addRoot, History.addOperation]

end State

/-! ## Events -/

/-- What can happen to a tree. -/
inductive Event
  | start (t : TreeId)
  | edit (t : TreeId) (e : Edit)
  | confirm (t : TreeId) (generation : Nat)

namespace Event

/-- The tree it happens to. -/
def tree : Event → TreeId
  | start t | edit t _ | confirm t _ => t

/-- The nodes that are made, whether they are stored already or not. -/
def made : Event → List Node
  | edit _ e => e.made
  | start _ | confirm _ _ => []

end Event

namespace State

variable {s : State} {t : TreeId} {h : History} {e : Edit} {ev : Event}

/-- An event is about a tree that is in a position for it. -/
def Admits (s : State) : Event → Prop
  | .start t => s.trees[t]? = none
  | .edit t e => ∃ h, s.trees[t]? = some h ∧ h.InOrder t ∧ h.Shows s.nodes e.source ∧ e.Fresh
  | .confirm t g => ∃ h, s.trees[t]? = some h ∧ g < h.roots.length

/-- The state after an event. -/
def after (s : State) : Event → State
  | .start t => s.setTree t (.start (.empty t))
  | .edit t e =>
      match s.trees[t]? with
      | none => s
      | some h => { s with nodes := s.nodes.addAll e.made }.setTree t (h.extend e)
  | .confirm t g =>
      match s.trees[t]? with
      | none => s
      | some h => s.setTree t (h.updateStatus g .committed)

/-- What is committed for an event. -/
def transactionFor (s : State) : Event → Transaction
  | .start t => Transaction.empty.add (.root (.empty t))
  | .edit t e =>
      match s.trees[t]? with
      | none => .empty
      | some h => (s.draftOf t h e).transaction
  | .confirm t g => Transaction.empty.add (.status t g .committed)

/-- What a draft of an edit writes down. -/
theorem exists_records_draftOf (s : State) (t : TreeId) (h : History) (e : Edit) :
    ∃ rs, s.nodes.addAll rs = s.nodes.addAll e.made ∧
      (s.draftOf t h e).transaction.records =
        rs.map .node ++ [.root (h.latest.next e.target.hash),
          .operation t (h.latest.generation + 1) e.operation] ∧
      (s.draftOf t h e).transaction.updates = [(t, e.change)] := by
  obtain ⟨rs, hc⟩ := Transaction.exists_collects_addNodes s.nodes e.made
  refine ⟨rs, hc.same, ?_, ?_⟩
  · simp [draftOf, finish, Transaction.add, Transaction.addUpdate, hc.records, Root.next]
  · simp [draftOf, finish, Transaction.add, Transaction.addUpdate, hc.updates]

theorem isVoid_transactionFor (ha : s.Admits ev) : (s.transactionFor ev).isVoid = false := by
  cases ev with
  | start t => rfl
  | edit t e =>
      obtain ⟨h, ht, -⟩ := ha
      obtain ⟨rs, -, -, hupdates⟩ := s.exists_records_draftOf t h e
      simp [transactionFor, ht, Transaction.isVoid, hupdates]
  | confirm t g => rfl

/-- New nodes, a new root and its operation pass the check of a batch. -/
theorem checkBatch_log (ht : s.trees[t]? = some h) (ho : h.InOrder t) (ns : List Node)
    (o : Operation) :
    s.checkBatch (ns.map .node ++ [.root (h.latest.next o.root),
      .operation t (h.latest.generation + 1) o]) = .ok () := by
  have hcounts : s.counts t = (h.roots.length, h.operations.length) := by simp [counts, ht]
  have hlength := ho.operations
  simp only [checkBatch, List.foldlM_append, foldlM_step_nodes, bind, Except.bind,
    List.foldlM_cons, List.foldlM_nil, Counts.step, Root.next, ho.tree_latest, hcounts,
    ho.generation_latest, hlength, if_pos]
  simp [Counts.set, pure, Except.pure, ← hlength]

/-- What is written down for an event passes the check of a batch. -/
theorem checkBatch_transactionFor (ha : s.Admits ev) :
    s.checkBatch (s.transactionFor ev).records = .ok () := by
  cases ev with
  | start t =>
      have ht : s.trees[t]? = none := ha
      simp [transactionFor, Transaction.add, Transaction.empty, checkBatch, Counts.step, Root.empty,
        counts, ht, bind, Except.bind, pure, Except.pure]
  | edit t e =>
      obtain ⟨h, ht, ho, -⟩ := ha
      obtain ⟨rs, -, hrecords, -⟩ := s.exists_records_draftOf t h e
      simp only [transactionFor, ht, hrecords, ← e.root_operation]
      exact checkBatch_log ht ho rs e.operation
  | confirm t g =>
      obtain ⟨h, ht, hg⟩ := ha
      simp [transactionFor, Transaction.add, Transaction.empty, checkBatch, Counts.step, counts, ht,
        hg, bind, Except.bind, pure, Except.pure]

/-- What is written down for an event makes the state after it. -/
theorem exists_applyAll_transactionFor (ha : s.Admits ev) :
    ∃ s', s.applyAll (s.transactionFor ev).records = .ok s' ∧
      (s.transactionFor ev).updates.foldl (fun s u => s.updateIndex u.1 u.2) s' = s.after ev := by
  cases ev with
  | start t =>
      have ht : s.trees[t]? = none := ha
      refine ⟨s.after (.start t), ?_, rfl⟩
      simp [transactionFor, Transaction.add, Transaction.empty, applyAll, apply, Root.empty, ht,
        after, bind, Except.bind, pure, Except.pure]
  | edit t e =>
      obtain ⟨h, ht, ho, -⟩ := ha
      obtain ⟨rs, hnodes, hrecords, hupdates⟩ := s.exists_records_draftOf t h e
      simp only [transactionFor, ht, after, hrecords, hupdates]
      -- the records make everything but the index, which is changed afterwards
      rw [← e.root_operation]
      refine ⟨_, applyAll_log ht ho rs e.operation, ?_⟩
      rw [hnodes, h.extend_eq_log]
      exact updateIndex_log _ t h e.operation e.change
  | confirm t g =>
      obtain ⟨h, ht, hg⟩ := ha
      refine ⟨s.after (.confirm t g), ?_, rfl⟩
      simp [transactionFor, Transaction.add, Transaction.empty, applyAll, apply, ht, hg, after,
        bind, Except.bind, pure, Except.pure]

end State

namespace Store

variable {s : Store} {ev : Event}

/-- Lets an event happen, unless the journal refuses what is written down for it. -/
def enter (ev : Event) : Action Unit := fun s =>
  match s.record (s.state.transactionFor ev).records with
  | .error err => (.error err, s)
  | .ok journal => (.ok (), { s with state := s.state.after ev, journal })

/-- Committing what is written down for an event lets it happen. -/
theorem commit_transactionFor (ha : s.state.Admits ev) :
    commit (s.state.transactionFor ev) s = enter ev s := by
  obtain ⟨s', happly, hafter⟩ := State.exists_applyAll_transactionFor ha
  simp only [commit, State.isVoid_transactionFor ha, Bool.false_eq_true, if_false,
    State.checkBatch_transactionFor ha, enter]
  cases s.record (s.state.transactionFor ev).records with
  | error err => rfl
  | ok journal => simp [happly, hafter]

end Store

end MerkleStore
