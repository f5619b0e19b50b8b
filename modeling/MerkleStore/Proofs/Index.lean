import MerkleStore.Proofs.Edit
import MerkleStore.Proofs.Stored

/-!
# Indexes of versions

An index describes a version if it has exactly the keys of its leaves and names the
parents of everything below its top; about other nodes it may say anything
(`Index.Describes`). The index that is changed along with an edit describes the new
version (`Index.Describes.apply`), and so does the one that is made out of the nodes
of a tree (`describes_foldl_addNode`). The first has entries left over from earlier
versions and the second has none.
-/

namespace MerkleStore

/-- A table names the parents of everything below the top. -/
def Tree.Followed (parents : Std.ExtTreeMap Hash Hash) (t : Tree) : Prop :=
  ∀ s ∈ t.subtrees, ∀ c ∈ s.children, parents[c.hash]? = some s.hash

namespace Index

open Edit

/-- The index has the keys of a version and the parents of its nodes. -/
structure Describes (i : Index) (v : Version) : Prop where
  keys : ∀ (key : Bytes) (h : Hash),
    i.keys[key]? = some h ↔ ∃ n ∈ v.leaves, n.key = key ∧ n.hash = h
  parents : ∀ t, v = some t → t.Followed i.parents

variable {i : Index} {v : Version} {t : Tree} {U : Set Node}

theorem Describes.mem_keys (hd : i.Describes v) {key : Bytes} :
    key ∈ i.keys ↔ key ∈ v.keys := by
  rw [Std.ExtTreeMap.mem_iff_isSome_getElem?, Option.isSome_iff_exists]
  constructor
  · rintro ⟨h, hh⟩
    obtain ⟨n, hn, rfl, -⟩ := (hd.keys key h).mp hh
    exact List.mem_map_of_mem hn
  · intro hkey
    obtain ⟨n, hn, rfl⟩ := List.mem_map.mp hkey
    exact ⟨n.hash, (hd.keys n.key n.hash).mpr ⟨n, hn, rfl, rfl⟩⟩

theorem Describes.keys_eq_none_iff (hd : i.Describes v) {key : Bytes} :
    i.keys[key]? = none ↔ key ∉ v.keys := by
  rw [← hd.mem_keys, Std.ExtTreeMap.mem_iff_isSome_getElem?, Option.not_isSome_iff_eq_none]

/-- As many keys are indexed as there are leaves. -/
theorem Describes.size_keys (hd : i.Describes v) (hv : v.Distinct) :
    i.keys.size = v.leaves.length := by
  have hperm : i.keys.keys.Perm v.keys := by
    refine (List.perm_ext_iff_of_nodup Std.ExtTreeMap.nodup_keys hv).mpr fun key => ?_
    rw [Std.ExtTreeMap.mem_keys, hd.mem_keys]
  rw [← Std.ExtTreeMap.length_keys, hperm.length_eq, Version.keys, List.length_map]

theorem Describes.empty : Index.empty.Describes none where
  keys := by simp [Index.empty, Version.leaves]
  parents := by simp

/-! ## Parents -/

theorem getElem?_insertParents {entries : List (Hash × Hash)} {child parent : Hash}
    (hone : ∀ p, (child, p) ∈ entries → p = parent)
    (h : (child, parent) ∈ entries ∨ i.parents[child]? = some parent) :
    (i.insertParents entries).parents[child]? = some parent := by
  induction entries generalizing i with
  | nil => simpa [insertParents] using h
  | cons e entries ih =>
      refine ih (i := { i with parents := i.parents.insert e.1 e.2 })
        (fun p hp => hone p (List.mem_cons_of_mem _ hp)) ?_
      -- an entry for the child that comes first says the same as those behind it
      by_cases hmem : (child, parent) ∈ entries
      · exact .inl hmem
      · refine .inr ?_
        simp only [Std.ExtTreeMap.getElem?_insert, Std.LawfulEqCmp.compare_eq_iff_eq]
        split
        · next heq => rw [hone e.2 (by simp [← heq])]
        · next hne =>
            rcases h with h | h
            · rcases List.mem_cons.mp h with rfl | h
              · exact absurd rfl hne
              · exact absurd h hmem
            · exact h

/-- The links of subtrees are entered without disturbing one another. -/
theorem followed_insertParents {trees : List Tree} (hU : Set.InjOn Node.hash U)
    (ht : t.MadeOf U) (hdistinct : t.Distinct) (htrees : ∀ s ∈ trees, s ∈ t.subtrees)
    (hold : ∀ s ∈ t.subtrees, s ∈ trees ∨ ∀ c ∈ s.children, i.parents[c.hash]? = some s.hash) :
    t.Followed (i.insertParents (trees.flatMap links)).parents := by
  intro s hs c hc
  apply getElem?_insertParents
  · intro p hp
    simp only [links, List.mem_flatMap, List.mem_map, Prod.mk.injEq] at hp
    obtain ⟨s', hs', c', hc', hhash, rfl⟩ := hp
    have hmem := htrees s' hs'
    -- the two children have one hash, hence are equal, and then so are their parents
    have heq : c' = c := Tree.eq_of_hash hU
      (ht.of_mem (Tree.mem_subtrees_trans (Tree.mem_subtrees_of_mem_children hc') hmem))
      (ht.of_mem (Tree.mem_subtrees_trans (Tree.mem_subtrees_of_mem_children hc) hs)) hhash
    rw [Tree.eq_of_mem_children hdistinct hmem hs (heq ▸ hc') hc]
  · refine (hold s hs).imp (fun hmem => ?_) (fun h => h c hc)
    exact List.mem_flatMap.mpr ⟨s, hmem, List.mem_map.mpr ⟨c, hc, rfl⟩⟩

/-! ## The index after an edit -/

theorem parents_apply (i : Index) (u : IndexChange) :
    (i.apply u).parents = (i.insertParents u.parents).parents := rfl

theorem keys_apply_insertion {e : Edit} (h : e.operation.isInsertion = true) :
    (i.apply e.change).keys = i.keys.insert e.terminal.key e.terminal.hash := by
  cases e <;> first | rfl | cases h

theorem keys_apply_deletion {e : Edit} (h : e.operation.isInsertion = false) :
    (i.apply e.change).keys = i.keys.erase e.terminal.key := by
  cases e <;> first | rfl | cases h

/-- The index that is changed along with an edit describes the new version. -/
theorem Describes.apply {e : Edit} (hd : i.Describes e.source) (hs : e.source.Distinct)
    (hf : e.Fresh) (hU : Set.InjOn Node.hash U) (ht : e.target.MadeOf U) :
    (i.apply e.change).Describes e.target where
  keys := by
    intro key h
    cases hop : e.operation.isInsertion with
    | true =>
        have hfresh := hf.not_mem_source hop
        simp only [keys_apply_insertion hop, Std.ExtTreeMap.getElem?_insert,
          Std.LawfulEqCmp.compare_eq_iff_eq, (leaves_target_perm hop).mem_iff, List.mem_cons]
        split
        · next heq =>
            have hno : ∀ n ∈ e.source.leaves, n.key ≠ key := fun n hn hkey =>
              hfresh (heq ▸ hkey ▸ List.mem_map_of_mem hn)
            grind
        · next hne =>
            rw [hd.keys]
            grind
    | false =>
        have hperm := leaves_source_perm hop
        have hnodup := List.nodup_cons.mp ((keys_source_perm hop).nodup_iff.mp hs)
        simp only [keys_apply_deletion hop, Std.ExtTreeMap.getElem?_erase,
          Std.LawfulEqCmp.compare_eq_iff_eq]
        split
        · next heq =>
            have hno : ∀ n ∈ e.target.leaves, n.key ≠ key := fun n hn hkey =>
              hnodup.1 (heq ▸ hkey ▸ List.mem_map_of_mem hn)
            grind
        · next hne =>
            rw [hd.keys]
            simp only [hperm.mem_iff, List.mem_cons]
            grind
  parents := by
    intro t htarget
    rw [parents_apply]
    have hdistinct := distinct_target hs hf
    rw [htarget] at hdistinct ht
    -- new branches have their links entered, what was there before has them still
    refine followed_insertParents hU ht hdistinct (fun s hs => ?_) (fun s hs => ?_)
    · simpa [htarget, Version.subtrees] using mem_target_of_mem_renewed hs
    · have hmem : s ∈ e.target.subtrees := by simpa [htarget, Version.subtrees] using hs
      rcases mem_subtrees_target hmem with hsource | hrenewed | ⟨hchildren, -⟩
      · refine .inr fun c hc => ?_
        cases hv : e.source with
        | none => simp [hv, Version.subtrees] at hsource
        | some t' => exact hd.parents t' hv s (by simpa [hv, Version.subtrees] using hsource) c hc
      · exact .inl hrenewed
      · exact .inr (by simp [hchildren])

/-! ## The index made out of nodes -/

theorem addNode_node (i : Index) (s : Tree) :
    i.addNode s.node =
      match s with
      | .leaf key value => { i with keys := i.keys.insert key (.terminal key value) }
      | .branch _ _ => i.insertParents (links s) := by
  cases s <;> rfl

theorem insertParents_append (i : Index) (xs ys : List (Hash × Hash)) :
    i.insertParents (xs ++ ys) = (i.insertParents xs).insertParents ys := by
  simp [insertParents]

theorem parents_foldl_addNode (i : Index) (trees : List Tree) :
    ((trees.map Tree.node).foldl addNode i).parents =
      (i.insertParents (trees.flatMap links)).parents := by
  induction trees generalizing i with
  | nil => rfl
  | cons s trees ih =>
      rw [List.map_cons, List.foldl_cons, ih, List.flatMap_cons, insertParents_append, addNode_node]
      cases s <;> rfl

theorem keys_foldl_addNode (i : Index) (ns : List Node) :
    (ns.foldl addNode i).keys =
      (ns.filterMap Node.terminal?).foldl (fun keys n => keys.insert n.key n.hash) i.keys := by
  induction ns generalizing i with
  | nil => rfl
  | cons n ns ih =>
      rw [List.foldl_cons, ih]
      cases n <;> rfl

theorem getElem?_foldl_insert {keys : Std.ExtTreeMap Bytes Hash} {leaves : List Terminal}
    (hnodup : (leaves.map Terminal.key).Nodup) (hnew : ∀ n ∈ leaves, keys[n.key]? = none)
    (key : Bytes) (h : Hash) :
    (leaves.foldl (fun keys n => keys.insert n.key n.hash) keys)[key]? = some h ↔
      keys[key]? = some h ∨ ∃ n ∈ leaves, n.key = key ∧ n.hash = h := by
  induction leaves generalizing keys with
  | nil => simp
  | cons n leaves ih =>
      obtain ⟨hn, hnodup⟩ := List.nodup_cons.mp hnodup
      have hother : ∀ m ∈ leaves, n.key ≠ m.key := fun m hm hkey =>
        hn (hkey ▸ List.mem_map_of_mem hm)
      have hself := hnew n List.mem_cons_self
      rw [List.foldl_cons, ih hnodup]
      · simp only [Std.ExtTreeMap.getElem?_insert, Std.LawfulEqCmp.compare_eq_iff_eq,
          List.mem_cons]
        grind
      · intro m hm
        have := hnew m (List.mem_cons_of_mem _ hm)
        simp only [Std.ExtTreeMap.getElem?_insert, Std.LawfulEqCmp.compare_eq_iff_eq,
          if_neg (hother m hm), this]

/-- The index made out of the nodes of a tree describes it. -/
theorem describes_foldl_addNode (hU : Set.InjOn Node.hash U) (ht : t.MadeOf U)
    (hdistinct : t.Distinct) :
    ((t.subtrees.map Tree.node).foldl addNode .empty).Describes (some t) where
  keys := by
    intro key h
    rw [keys_foldl_addNode, NodeMap.filterMap_terminal?_subtrees,
      getElem?_foldl_insert hdistinct (by simp [Index.empty])]
    simp [Index.empty, Version.leaves]
  parents := by
    rintro _ ⟨rfl⟩
    rw [parents_foldl_addNode]
    exact followed_insertParents hU ht hdistinct (fun _ h => h) fun _ h => .inl h

end Index

end MerkleStore
