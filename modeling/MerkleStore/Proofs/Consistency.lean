import MerkleStore.Proofs.Run

/-!
# Every run leaves a consistent store

What an audit looks for, said in terms of what is stored (`History.Consistent`):
everything that a root reaches is stored under the hash of its content, generations are
counted from zero, the operations lead to the roots after the first, and the index has
exactly the leaves of the last root. `consistent_of_run` says that this holds after every
run in which no contents collide, and that an audit then finds nothing.
-/

namespace MerkleStore

/-- A hash is found on the way down from another one. -/
inductive NodeMap.Reaches (nodes : NodeMap) : Hash → Hash → Prop
  | here (h : Hash) : Reaches nodes h h
  | left {h k : Hash} {n : Internal} (hn : nodes[h]? = some (.internal n))
      (hk : Reaches nodes n.left k) : Reaches nodes h k
  | right {h k : Hash} {n : Internal} (hn : nodes[h]? = some (.internal n))
      (hk : Reaches nodes n.right k) : Reaches nodes h k

/-- Nothing that is stored about a tree contradicts anything else. -/
structure History.Consistent (nodes : NodeMap) (h : History) : Prop where
  /-- Whatever a root reaches is stored under the hash of its content. -/
  reached : ∀ r ∈ h.roots, ∀ top, r.node = some top → ∀ k, nodes.Reaches top k →
    ∃ n, nodes[k]? = some n ∧ n.hash = k ∧ n.contentHash = k
  generations : ∀ (i : Nat) (r : Root), h.roots[i]? = some r → r.generation = i
  /-- Every generation after 0 has one operation, with the hash at its root. -/
  operations : h.operations.map Operation.root = h.roots.tail.map Root.node
  /-- The index has the leaves of the last generation under their keys. -/
  index : ∀ (key : Bytes) (leaf : Hash), h.index.keys[key]? = some leaf ↔
    ∃ top n, h.latest.node = some top ∧ nodes.Reaches top leaf ∧
      nodes[leaf]? = some (.terminal n) ∧ n.key = key
  /-- No key occurs twice in the last generation. -/
  keys : ∀ top, h.latest.node = some top → ∃ ns, (nodes.preorder top).nodes = .ok ns ∧
    ((ns.filterMap Node.terminal?).map Terminal.key).Nodup

namespace NodeMap

variable {nodes : NodeMap} {t : Tree} {k : Hash}

/-- A stored tree reaches the hashes of its subtrees. -/
theorem reaches_iff (ht : t.MadeOf nodes.stored) :
    nodes.Reaches t.hash k ↔ ∃ s ∈ t.subtrees, s.hash = k := by
  constructor
  · intro hk
    generalize hh : t.hash = h at hk
    induction hk generalizing t with
    | here h => exact ⟨t, t.self_mem_subtrees, hh⟩
    | @left h k n hn hk ih =>
        subst hh
        rw [getElem?_top ht] at hn
        cases t with
        | leaf key value => cases hn
        | branch l r =>
            cases hn
            obtain ⟨s, hs, rfl⟩ := ih ht.left rfl
            exact ⟨s, by simp [Tree.subtrees, hs], rfl⟩
    | @right h k n hn hk ih =>
        subst hh
        rw [getElem?_top ht] at hn
        cases t with
        | leaf key value => cases hn
        | branch l r =>
            cases hn
            obtain ⟨s, hs, rfl⟩ := ih ht.right rfl
            exact ⟨s, by simp [Tree.subtrees, hs], rfl⟩
  · rintro ⟨s, hs, rfl⟩
    induction t with
    | leaf key value =>
        obtain rfl := List.mem_singleton.mp hs
        exact .here _
    | branch l r ihl ihr =>
        have hn : nodes[(Tree.branch l r).hash]? = some (.internal (.ofPair l.hash r.hash)) :=
          getElem?_top ht
        simp only [Tree.subtrees, List.mem_cons, List.mem_append] at hs
        rcases hs with rfl | hs | hs
        · exact .here _
        · exact .left hn (ihl ht.left hs)
        · exact .right hn (ihr ht.right hs)

/-- The leaves of a stored tree are the terminal nodes it reaches. -/
theorem mem_leaves_iff (ht : t.MadeOf nodes.stored) {n : Terminal} :
    n ∈ t.leaves ↔ nodes.Reaches t.hash n.hash ∧ nodes[n.hash]? = some (.terminal n) := by
  rw [← filterMap_terminal?_subtrees, List.mem_filterMap]
  constructor
  · rintro ⟨m, hm, hn⟩
    obtain ⟨s, hs, rfl⟩ := List.mem_map.mp hm
    have hnode : s.node = .terminal n := by
      cases hsn : s.node with
      | terminal n' => rw [hsn] at hn; cases hn; rfl
      | internal n' => rw [hsn] at hn; cases hn
    have hhash : s.hash = n.hash := by rw [← Tree.hash_node, hnode]; rfl
    refine ⟨(reaches_iff ht).mpr ⟨s, hs, hhash⟩, ?_⟩
    rw [← hhash, getElem?_hash ht hs, hnode]
  · rintro ⟨hreach, hn⟩
    obtain ⟨s, hs, hhash⟩ := (reaches_iff ht).mp hreach
    rw [← hhash, getElem?_hash ht hs, Option.some.injEq] at hn
    exact ⟨.terminal n, List.mem_map.mpr ⟨s, hs, hn⟩, rfl⟩

end NodeMap

/-- The index has a key at a leaf if and only if the last root reaches such a leaf. -/
theorem History.Shows.keys_eq_some_iff {nodes : NodeMap} {h : History} {v : Version}
    (hs : h.Shows nodes v) {key : Bytes} {leaf : Hash} :
    h.index.keys[key]? = some leaf ↔ ∃ top n, h.latest.node = some top ∧
      nodes.Reaches top leaf ∧ nodes[leaf]? = some (.terminal n) ∧ n.key = key := by
  rw [hs.index.keys, hs.root]
  cases v with
  | none => simp [Version.leaves, Version.hash]
  | some a =>
      constructor
      · rintro ⟨n, hn, rfl, rfl⟩
        obtain ⟨hreach, hget⟩ := (NodeMap.mem_leaves_iff hs.stored).mp hn
        exact ⟨a.hash, n, rfl, hreach, hget, rfl⟩
      · rintro ⟨_, n, ⟨rfl⟩, hreach, hget, rfl⟩
        obtain ⟨s, hsub, rfl⟩ := (NodeMap.reaches_iff hs.stored).mp hreach
        -- the node found under the hash is that of the subtree, so it carries the hash
        have hnode := hget
        rw [NodeMap.getElem?_hash hs.stored hsub, Option.some.injEq] at hnode
        have hhash : n.hash = s.hash := by rw [← Tree.hash_node, hnode]; rfl
        have hn := (NodeMap.mem_leaves_iff hs.stored).mpr ⟨hhash ▸ hreach, hhash ▸ hget⟩
        exact ⟨n, hn, rfl, hhash⟩

/-- A history that edits have made is consistent. -/
theorem History.Made.consistent {nodes : NodeMap} {h : History} {t : TreeId} {es : List Edit}
    {v : Version} (hm : h.Made nodes t es v) : h.Consistent nodes where
  reached := by
    intro r hr top htop k hk
    obtain ⟨g, hg⟩ := List.mem_iff_getElem?.mp hr
    obtain ⟨u, hu, hnode⟩ := hm.node_root hg
    have hstored := hm.stored_versions (List.mem_of_getElem? hu)
    rw [hnode] at htop
    cases u with
    | none => cases htop
    | some a =>
        cases htop
        obtain ⟨s, hs, rfl⟩ := (NodeMap.reaches_iff hstored).mp hk
        exact ⟨s.node, NodeMap.getElem?_hash hstored hs, by simp, by simp⟩
  generations := fun i r hr => (hm.inOrder.root i r hr).2
  operations := hm.root_operations
  index := fun _ _ => hm.shows.keys_eq_some_iff
  keys := by
    intro top htop
    have hs := hm.shows
    rw [hs.root] at htop
    cases v with
    | none => cases htop
    | some a =>
        cases htop
        refine ⟨_, NodeMap.nodes_preorder_hash hs.stored, ?_⟩
        rw [NodeMap.filterMap_terminal?_subtrees]
        exact hs.distinct

/-- After every run without a collision an audit finds nothing, and every tree is
consistent. -/
theorem consistent_of_run {s : Store} (hs : s.IsNew) {steps : List Step}
    (hc : CollisionFree (contents s steps)) :
    ∃ s', run s steps = .ok s' ∧ Store.audit s' = (.ok (), s') ∧
      ∀ (t : TreeId) (h : History), s'.state.trees[t]? = some h → h.Consistent s'.state.nodes := by
  obtain ⟨s', hrun, hs', -, -⟩ := (hs.intact _).exists_run
    (hc.injOn_hash fun _ hn => hash_of_mem_contents hn) steps fun n hn => hn
  refine ⟨s', hrun, hs'.audit, fun t h ht => ?_⟩
  obtain ⟨es, v, hm⟩ := hs'.sound.trees t h ht
  exact hm.consistent

/-- The small run has no collision, and so it leaves a consistent store. -/
theorem consistent_of_sampleSteps :
    CollisionFree (contents (.create sampleCodec) sampleSteps) ∧
      ∃ s', run (.create sampleCodec) sampleSteps = .ok s' ∧ Store.audit s' = (.ok (), s') ∧
        ∀ (t : TreeId) (h : History), s'.state.trees[t]? = some h →
          h.Consistent s'.state.nodes := by
  have hc : CollisionFree (contents (.create sampleCodec) sampleSteps) := by decide +kernel
  exact ⟨hc, consistent_of_run (.inr ⟨_, rfl⟩) hc⟩

end MerkleStore
