import Mathlib.Data.List.Perm.Subperm
import MerkleStore.Proofs.Tree
import MerkleStore.Walk

/-!
# Stored trees

A node map is sound if every entry is the top of a tree that is stored as a whole,
each node under its own hash (`NodeMap.Sound`). A stored tree is no higher than there
are nodes, so that no walk runs out of depth, and a walk under its top visits its
subtrees in order (`preorder_hash`). Nodes that are added keep a map sound if no two
of them, stored or new, share a hash (`Sound.addAll`).
-/

namespace MerkleStore

/-! ## One walk after another -/

namespace Trace

/-- After a walk that has not failed another one goes on. -/
@[simp] theorem append_mk (a b : List (Hash × Node)) (f : Option Error) :
    (⟨a, none⟩ ++ ⟨b, f⟩ : Trace) = ⟨a ++ b, f⟩ := rfl

/-- Nothing follows a failure. -/
theorem append_of_failure {a b : Trace} {e : Error} (ha : a.failure = some e) : a ++ b = a := by
  show append a b = a
  rw [append, ha]

theorem failure_append_of_none {a b : Trace} (ha : a.failure = none) :
    (a ++ b).failure = b.failure := by
  show (append a b).failure = b.failure
  rw [append, ha]

theorem failure_append_eq_none {a b : Trace} :
    (a ++ b).failure = none ↔ a.failure = none ∧ b.failure = none := by
  cases ha : a.failure with
  | none => simp [failure_append_of_none ha]
  | some e => simp [append_of_failure ha, ha]

theorem failure_append_eq_some {a b : Trace} {e : Error} (h : (a ++ b).failure = some e) :
    a.failure = some e ∨ b.failure = some e := by
  cases ha : a.failure with
  | none => exact .inr (failure_append_of_none ha ▸ h)
  | some e' =>
      rw [append_of_failure ha, ha] at h
      exact .inl h

theorem visited_append_of_none {a b : Trace} (ha : a.failure = none) :
    (a ++ b).visited = a.visited ++ b.visited := by
  show (append a b).visited = _
  rw [append, ha]

theorem mem_visited_append {a b : Trace} {v : Hash × Node} (hv : v ∈ (a ++ b).visited) :
    v ∈ a.visited ∨ v ∈ b.visited := by
  cases ha : a.failure with
  | none =>
      rw [visited_append_of_none ha] at hv
      exact List.mem_append.mp hv
  | some e =>
      rw [append_of_failure ha] at hv
      exact .inl hv

end Trace

/-! ## Node maps -/

namespace NodeMap

variable {nodes : NodeMap} {t s : Tree} {h : Hash} {n : Node}

/-- The nodes that are found under the hash they claim. -/
def stored (nodes : NodeMap) : Set Node := {n | nodes[n.hash]? = some n}

/-- Every entry is the top of a stored tree. -/
def Sound (nodes : NodeMap) : Prop :=
  ∀ (h : Hash) (n : Node), nodes[h]? = some n → ∃ t : Tree, t.MadeOf nodes.stored ∧ t.hash = h

/-- All entries are in a set. -/
def Within (nodes : NodeMap) (U : Set Node) : Prop :=
  ∀ (h : Hash) (n : Node), nodes[h]? = some n → n ∈ U

theorem mem_stored : n ∈ nodes.stored ↔ nodes[n.hash]? = some n := Iff.rfl

theorem injOn_hash_stored (nodes : NodeMap) : Set.InjOn Node.hash nodes.stored := by
  intro a ha b hb h
  rw [mem_stored] at ha hb
  rw [h, hb] at ha
  exact (Option.some.inj ha).symm

theorem getElem?_hash (ht : t.MadeOf nodes.stored) (hs : s ∈ t.subtrees) :
    nodes[s.hash]? = some s.node := by
  simpa [mem_stored] using ht s hs

theorem getElem?_top (ht : t.MadeOf nodes.stored) : nodes[t.hash]? = some t.node :=
  getElem?_hash ht t.self_mem_subtrees

/-- A stored tree is determined by its hash. -/
theorem eq_of_hash_stored (ht : t.MadeOf nodes.stored) (hs : s.MadeOf nodes.stored)
    (h : t.hash = s.hash) : t = s :=
  Tree.eq_of_hash nodes.injOn_hash_stored ht hs h

theorem Sound.empty : Sound ∅ := by
  intro h n hn
  simp at hn

theorem Sound.hash_eq (hs : nodes.Sound) (hn : nodes[h]? = some n) :
    n.hash = h ∧ n.contentHash = h := by
  obtain ⟨t, ht, rfl⟩ := hs h n hn
  rw [getElem?_top ht] at hn
  cases hn
  simp

/-! ## Height -/

/-- A stored tree is not higher than there are nodes. -/
theorem height_le_size (ht : t.MadeOf nodes.stored) : t.height ≤ nodes.size := by
  obtain ⟨chain, hlength, hnodup, hmem⟩ := t.exists_chain
  -- different subtrees have different hashes, and each is the key of a stored node
  have hmade {s : Tree} (hs : s ∈ chain) : s.MadeOf nodes.stored := ht.of_mem (hmem s hs)
  have hhashes : (chain.map Tree.hash).Nodup :=
    hnodup.map_on fun a ha b hb h => eq_of_hash_stored (hmade ha) (hmade hb) h
  have hsub : chain.map Tree.hash ⊆ nodes.keys := by
    intro h hh
    obtain ⟨s, hs, rfl⟩ := List.mem_map.mp hh
    rw [Std.ExtTreeMap.mem_keys, Std.ExtTreeMap.mem_iff_isSome_getElem?, getElem?_top (hmade hs)]
    rfl
  have := (hhashes.subperm hsub).length_le
  rwa [List.length_map, hlength, Std.ExtTreeMap.length_keys] at this

/-! ## Walks -/

/-- A subtree as a walk visits it. -/
def visit (s : Tree) : Hash × Node := (s.hash, s.node)

theorem walkWithin_hash {depth : Nat} (ht : t.MadeOf nodes.stored) (hd : t.height ≤ depth) :
    nodes.walkWithin .left (fun _ => false) depth t.hash = ⟨t.subtrees.map visit, none⟩ := by
  induction t generalizing depth with
  | leaf key value =>
      cases depth with
      | zero => simp [Tree.height] at hd
      | succ depth =>
          have hnode := getElem?_top ht
          simp only [Tree.node] at hnode
          simp [walkWithin, hnode, Tree.subtrees, visit, Tree.node]
  | branch l r ihl ihr =>
      cases depth with
      | zero => simp [Tree.height] at hd
      | succ depth =>
          have hnode := getElem?_top ht
          simp only [Tree.node] at hnode
          simp only [Tree.height] at hd
          have hl := ihl ht.left (show l.height ≤ depth by omega)
          have hr := ihr ht.right (show r.height ≤ depth by omega)
          simp only [walkWithin, hnode, Bool.false_eq_true, if_false, Internal.ofPair,
            Internal.child, Side.other, hl, hr]
          simp [Tree.subtrees, visit, Tree.hash, Tree.node, Internal.ofPair]

/-- The walk under the top of a stored tree. -/
theorem preorder_hash (ht : t.MadeOf nodes.stored) :
    nodes.preorder t.hash = ⟨t.subtrees.map visit, none⟩ :=
  walkWithin_hash ht (Nat.le_succ_of_le (height_le_size ht))

theorem nodes_preorder_hash (ht : t.MadeOf nodes.stored) :
    (nodes.preorder t.hash).nodes = .ok (t.subtrees.map Tree.node) := by
  rw [preorder_hash ht, Trace.nodes, List.map_map]
  rfl

theorem filterMap_terminal?_subtrees (t : Tree) :
    (t.subtrees.map Tree.node).filterMap Node.terminal? = t.leaves := by
  induction t with
  | leaf key value => rfl
  | branch l r ihl ihr =>
      simp only [Tree.subtrees, List.map_cons, List.map_append, Tree.leaves, ← ihl, ← ihr]
      rw [List.filterMap_cons_none rfl, List.filterMap_append]

/-! ## Nodes that are added -/

/-- The map with more nodes; of two nodes with one hash the first one stays. -/
def addAll (nodes : NodeMap) (ns : List Node) : NodeMap :=
  ns.foldl (fun nodes n => nodes.insertIfNew n.hash n) nodes

variable {ns : List Node}

theorem getElem?_addAll_of_some (hn : nodes[h]? = some n) : (nodes.addAll ns)[h]? = some n := by
  induction ns generalizing nodes with
  | nil => exact hn
  | cons m ns ih =>
      apply ih
      rw [Std.ExtTreeMap.getElem?_insertIfNew]
      have : h ∈ nodes := by rw [Std.ExtTreeMap.mem_iff_isSome_getElem?, hn]; rfl
      grind

theorem mem_of_getElem?_addAll (hn : (nodes.addAll ns)[h]? = some n) :
    nodes[h]? = some n ∨ n ∈ ns ∧ n.hash = h := by
  induction ns generalizing nodes with
  | nil => exact .inl hn
  | cons m ns ih =>
      rcases ih hn with hn | ⟨hmem, hhash⟩
      · rw [Std.ExtTreeMap.getElem?_insertIfNew] at hn
        split at hn
        · next heq =>
            cases hn
            exact .inr ⟨by simp, by simpa using heq.1⟩
        · exact .inl hn
      · exact .inr ⟨by simp [hmem], hhash⟩

theorem exists_getElem?_addAll (hn : n ∈ ns) : ∃ m, (nodes.addAll ns)[n.hash]? = some m := by
  induction ns generalizing nodes with
  | nil => simp at hn
  | cons m ns ih =>
      rcases List.mem_cons.mp hn with rfl | hn
      · have hmem : n.hash ∈ nodes.insertIfNew n.hash n := by simp
        rw [Std.ExtTreeMap.mem_iff_isSome_getElem?] at hmem
        obtain ⟨m, hm⟩ := Option.isSome_iff_exists.mp hmem
        have hadd : (addAll (nodes.insertIfNew n.hash n) ns)[n.hash]? = some m :=
          getElem?_addAll_of_some hm
        exact ⟨m, hadd⟩
      · exact ih hn

theorem stored_subset_addAll : nodes.stored ⊆ (nodes.addAll ns).stored :=
  fun _ hn => getElem?_addAll_of_some hn

variable {U : Set Node}

theorem Within.addAll (hw : nodes.Within U) (hns : ∀ n ∈ ns, n ∈ U) :
    (nodes.addAll ns).Within U := by
  intro h n hn
  rcases mem_of_getElem?_addAll hn with hn | hn
  · exact hw h n hn
  · exact hns n hn.1

theorem Within.stored_subset (hw : nodes.Within U) : nodes.stored ⊆ U :=
  fun n hn => hw n.hash n hn

/-- Without a collision every node that is added is stored. -/
theorem mem_stored_addAll (hU : Set.InjOn Node.hash U) (hs : nodes.Sound) (hw : nodes.Within U)
    (hns : ∀ n ∈ ns, n ∈ U) (hn : n ∈ ns) : n ∈ (nodes.addAll ns).stored := by
  obtain ⟨m, hm⟩ : ∃ m, (nodes.addAll ns)[n.hash]? = some m := exists_getElem?_addAll hn
  have hhash : m.hash = n.hash := by
    rcases mem_of_getElem?_addAll hm with hold | hnew
    · exact (hs.hash_eq hold).1
    · exact hnew.2
  have : m = n := hU (hw.addAll hns _ _ hm) (hns n hn) hhash
  rw [mem_stored, hm, this]

/-- A map stays sound if what is added belongs to trees that are complete then. -/
theorem Sound.addAll (hs : nodes.Sound)
    (hns : ∀ n ∈ ns, ∃ t : Tree, t.MadeOf (nodes.addAll ns).stored ∧ t.node = n) :
    (nodes.addAll ns).Sound := by
  intro h n hn
  rcases mem_of_getElem?_addAll hn with hn | ⟨hmem, rfl⟩
  · obtain ⟨s, hs, hhash⟩ := hs h n hn
    exact ⟨s, hs.mono stored_subset_addAll, hhash⟩
  · obtain ⟨s, hs, rfl⟩ := hns n hmem
    exact ⟨s, hs, by simp⟩

end NodeMap

end MerkleStore
