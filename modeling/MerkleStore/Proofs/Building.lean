import MerkleStore.Proofs.Draft
import MerkleStore.Proofs.Grounded

/-!
# Drafts on any nodes

What a write works out is built from below, whatever is stored and even if contents
collide: a transaction collects nodes whose children are there (`Transaction.Builds`),
and the root of a draft is one of them or one that was stored (`Draft.Extends`). The
operation of a draft leads to its root.
-/

namespace MerkleStore

variable {s : State} {t : TreeId} {h : History}

theorem Node.mem_children_of_sibling? {n : Node} {child sibling : Hash}
    (h : n.internal?.bind (·.sibling? child) = some sibling) : sibling ∈ n.children := by
  cases n with
  | terminal n => cases h
  | internal n =>
      simp only [Node.internal?, Option.bind_some, Internal.sibling?] at h
      split at h
      · cases h
        simp [Node.children]
      · split at h <;> cases h
        simp [Node.children]

namespace Transaction

variable {tx tx' : Transaction} {nodes now : NodeMap}

/-- A transaction has collected nodes that make `now` out of what is stored. -/
structure Builds (tx : Transaction) (nodes now : NodeMap) : Prop where
  records : ∃ ns : List Node, tx.records = ns.map .node ∧ nodes.addAll ns = now
  updates : tx.updates = []
  grounded : now.Grounded
  lookup : ∀ h : Hash, now[h]? = tx.staged[h]?.or nodes[h]?

theorem Builds.empty (hg : nodes.Grounded) : Transaction.empty.Builds nodes nodes where
  records := ⟨[], rfl, rfl⟩
  updates := rfl
  grounded := hg
  lookup := by simp [Transaction.empty]

theorem Builds.addNode (hb : tx.Builds nodes now) {n : Node} (hn : ∀ c ∈ n.children, c ∈ now) :
    (tx.addNode nodes n).Builds nodes (now.insertIfNew n.hash n) := by
  have hiff : n.hash ∈ tx.staged ∨ n.hash ∈ nodes ↔ n.hash ∈ now := by
    simp only [Std.ExtTreeMap.mem_iff_isSome_getElem?, hb.lookup, Option.isSome_or, Bool.or_eq_true]
  by_cases hmem : n.hash ∈ now
  · have htx : tx.addNode nodes n = tx := by
      simp [Transaction.addNode, Std.ExtTreeMap.contains_iff_mem, hiff.mpr hmem]
    rwa [htx, NodeMap.insertIfNew_of_mem hmem]
  · have hnot : ¬ (n.hash ∈ tx.staged ∨ n.hash ∈ nodes) := fun h => hmem (hiff.mp h)
    have htx : tx.addNode nodes n =
        { tx with staged := tx.staged.insert n.hash n, records := tx.records ++ [.node n] } := by
      simp [Transaction.addNode, Std.ExtTreeMap.contains_iff_mem, hnot]
    obtain ⟨ns, hrecords, hnow⟩ := hb.records
    rw [htx]
    refine ⟨⟨ns ++ [n], by simp [hrecords], ?_⟩, hb.updates, hb.grounded.add n hn, fun h => ?_⟩
    · rw [NodeMap.addAll_append, hnow]
      rfl
    · rw [Std.ExtTreeMap.getElem?_insertIfNew, Std.ExtTreeMap.getElem?_insert, hb.lookup]
      split <;> split <;> simp_all

/-- A node that a transaction finds is there. -/
theorem Builds.node (hb : tx.Builds s.nodes now) {hash : Hash} {n : Node}
    (hn : tx.node s hash = .ok n) : now[hash]? = some n := by
  rw [hb.lookup]
  rw [Transaction.node, State.node] at hn
  cases hstaged : tx.staged[hash]? with
  | some m =>
      rw [hstaged] at hn
      cases hn
      rfl
  | none =>
      rw [hstaged] at hn
      cases hstored : s.nodes[hash]? with
      | some m =>
          simp only [hstored, Except.ok.injEq] at hn
          simp [hn]
      | none => simp [hstored] at hn

/-- Both children of a branch with a child exchanged are there. -/
theorem Builds.children_exchange? (hb : tx.Builds s.nodes now) {ancestor old new : Hash} {n : Node}
    {m : Internal} (hn : tx.node s ancestor = .ok n) (hnew : new ∈ now)
    (hm : n.internal?.bind (·.exchange? old new) = some m) :
    ∀ c ∈ (Node.internal m).children, c ∈ now := by
  obtain ⟨b, hb', hexchange⟩ := Option.bind_eq_some_iff.mp hm
  have hnode : n = .internal b := by
    cases n with
    | terminal n => cases hb'
    | internal n =>
        cases hb'
        rfl
  have hchild {c : Hash} (hc : c ∈ (Node.internal b).children) : c ∈ now :=
    hb.grounded.child_mem (hb.node (hnode ▸ hn)) hc
  have hleft : b.left ∈ now := hchild (by simp [Node.children])
  have hright : b.right ∈ now := hchild (by simp [Node.children])
  rw [Internal.exchange?] at hexchange
  split at hexchange
  · cases hexchange
    simp [Node.children, Internal.ofPair, hnew, hright]
  · split at hexchange <;> cases hexchange
    simp [Node.children, Internal.ofPair, hnew, hleft]

/-- The root of a renewed path is there. -/
theorem Builds.renewPath (hb : tx.Builds s.nodes now) {u u' : IndexChange} {path : List Hash}
    {old new root : Hash} (hnew : new ∈ now)
    (hr : s.renewPath tx u path old new = .ok (tx', u', root)) :
    ∃ now', tx'.Builds s.nodes now' ∧ root ∈ now' := by
  induction path generalizing tx now u old new with
  | nil =>
      cases hr
      exact ⟨now, hb, hnew⟩
  | cons ancestor path ih =>
      obtain ⟨n, hn, hrest⟩ := bind_eq_ok.mp hr
      cases hm : n.internal?.bind (·.exchange? old new) with
      | none =>
          rw [hm] at hrest
          cases hrest
      | some m =>
          rw [hm] at hrest
          have hadded := hb.addNode (hb.children_exchange? hn hnew hm)
          exact ih hadded (by simp [Node.hash]) hrest

end Transaction

/-! ## Drafts -/

/-- A draft puts a generation behind the last one that is made by an operation. -/
structure Draft.Extends (d : Draft) (s : State) (t : TreeId) (h : History) (o : Operation) :
    Prop where
  records : ∃ ns : List Node, (s.nodes.addAll ns).Grounded ∧
    (∀ k, o.root = some k → k ∈ s.nodes.addAll ns) ∧
    d.transaction.records = ns.map .node ++
      [.root (h.latest.next o.root), .operation t (h.latest.generation + 1) o]
  updates : ∃ u, d.transaction.updates = [(t, u)]
  root : d.root = o.root
  pending : o.status = .pending

theorem Transaction.Builds.finish {tx : Transaction} {now : NodeMap} (hb : tx.Builds s.nodes now)
    {root : Option Hash} (hroot : ∀ k, root = some k → k ∈ now) (u : IndexChange) {o : Operation}
    (ho : o.root = root) (hstatus : o.status = .pending) :
    (State.finish t h tx u root o).Extends s t h o := by
  subst ho
  obtain ⟨ns, hrecords, rfl⟩ := hb.records
  refine ⟨⟨ns, hb.grounded, hroot, ?_⟩, ⟨u, ?_⟩, rfl, hstatus⟩
  · simp [State.finish, Transaction.add, Transaction.addUpdate, hrecords, Root.next]
  · simp [State.finish, Transaction.add, Transaction.addUpdate, hb.updates]

namespace State

theorem mem_of_hasChild (hg : s.nodes.Grounded) {parent child : Hash}
    (hc : s.hasChild parent child = true) : child ∈ s.nodes := by
  rw [hasChild] at hc
  split at hc
  · next n hn =>
      refine hg.child_mem hn ?_
      simp only [Bool.or_eq_true, beq_iff_eq] at hc
      rcases hc with rfl | rfl <;> simp [Node.children]
  · cases hc

/-- Whatever has ancestors up to a stored root is stored. -/
theorem mem_of_climb (hg : s.nodes.Grounded) {parents : Std.ExtTreeMap Hash Hash}
    {root target : Hash} {fuel : Nat} {path : List Hash} (hroot : root ∈ s.nodes)
    (hc : s.climb parents root fuel target = some path) : target ∈ s.nodes := by
  cases fuel with
  | zero =>
      rw [climb] at hc
      split at hc
      · next heq => exact heq ▸ hroot
      · cases hc
  | succ fuel =>
      rw [climb] at hc
      split at hc
      · next heq => exact heq ▸ hroot
      · split at hc
        · cases hc
        · split at hc
          · next hchild => exact mem_of_hasChild hg hchild
          · cases hc

theorem mem_of_ancestry (hg : s.nodes.Grounded) (hroot : ∀ k, h.latest.node = some k → k ∈ s.nodes)
    {target : Hash} {path : List Hash} (ha : s.ancestry h target = some path) :
    target ∈ s.nodes := by
  rw [ancestry] at ha
  split at ha
  · cases ha
  · next root hr => exact mem_of_climb hg (hroot root hr) ha

/-- A new leaf is put beside a stored node. -/
theorem mem_of_placeFor (hg : s.nodes.Grounded) (hroot : ∀ k, h.latest.node = some k → k ∈ s.nodes)
    {reference : Option Hash} {side : Option Side} {r : Hash} {side' : Side} {path : List Hash}
    (hp : s.placeFor t h reference side = .ok (.beside r side' path)) : r ∈ s.nodes := by
  simp only [placeFor] at hp
  split at hp
  · cases hp
  · cases hp
  · cases hp
  · split at hp
    · cases hp
    · split at hp
      · cases hp
      · next ha =>
          cases hp
          exact mem_of_ancestry hg hroot ha

/-- The draft of an insertion extends the tree it is about. -/
theorem exists_extends_draftInsertion (hg : s.nodes.Grounded)
    (hroot : ∀ h, s.trees[t]? = some h → ∀ k, h.latest.node = some k → k ∈ s.nodes)
    {key value : Bytes} {reference : Option Hash} {side : Option Side} {d : Draft}
    (hd : s.draftInsertion t key value reference side = .ok d) :
    ∃ h o, s.trees[t]? = some h ∧ d.Extends s t h o := by
  obtain ⟨h, htree, hd⟩ := bind_eq_ok.mp hd
  have ht := tree_eq_ok.mp htree
  refine ⟨h, ?_⟩
  have hchildren : ∀ c ∈ (Node.terminal (.ofPair key value)).children, c ∈ s.nodes := by
    simp [Node.children]
  have hleaf := (Transaction.Builds.empty hg).addNode hchildren
  split at hd
  · cases hd
  · obtain ⟨place, hp, hd⟩ := bind_eq_ok.mp hd
    cases place with
    | top =>
        cases hd
        exact ⟨_, ht, hleaf.finish (by simp [Node.hash]) _ rfl rfl⟩
    | beside r side path =>
        have hr := mem_of_placeFor hg (hroot h ht) hp
        have hjoined := hleaf.addNode (n := .internal (.join r (.terminal key value) side)) (by
          cases side <;> simp [Node.children, Internal.join, Internal.ofPair, Node.hash, hr])
        obtain ⟨⟨tx, u, root⟩, hrenew, hd⟩ := bind_eq_ok.mp hd
        cases hd
        obtain ⟨now, hnow, hmem⟩ := hjoined.renewPath (by simp [Node.hash]) hrenew
        exact ⟨_, ht, hnow.finish (by rintro k ⟨rfl⟩; exact hmem) _ rfl rfl⟩

/-- The draft of a deletion extends the tree it is about. -/
theorem exists_extends_draftDeletion (hg : s.nodes.Grounded) {key : Bytes} {d : Draft}
    (hd : s.draftDeletion t key = .ok d) : ∃ h o, s.trees[t]? = some h ∧ d.Extends s t h o := by
  obtain ⟨h, htree, hd⟩ := bind_eq_ok.mp hd
  have ht := tree_eq_ok.mp htree
  refine ⟨h, ?_⟩
  have hempty := Transaction.Builds.empty hg
  split at hd
  · cases hd
  · next leaf hleaf =>
    split at hd
    · cases hd
    · cases hd
      exact ⟨_, ht, hempty.finish (by simp) _ rfl rfl⟩
    · next parent path hpath =>
      obtain ⟨n, hn, hd⟩ := bind_eq_ok.mp hd
      split at hd
      · cases hd
      · next sibling hsibling =>
          have hstored := hg.child_mem (hempty.node hn) (Node.mem_children_of_sibling? hsibling)
          obtain ⟨⟨tx, u, root⟩, hrenew, hd⟩ := bind_eq_ok.mp hd
          cases hd
          obtain ⟨now, hnow, hmem⟩ := hempty.renewPath hstored hrenew
          exact ⟨_, ht, hnow.finish (by rintro k ⟨rfl⟩; exact hmem) _ rfl rfl⟩

end State

end MerkleStore
