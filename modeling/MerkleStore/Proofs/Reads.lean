import MerkleStore.Proofs.Bindings
import MerkleStore.Proofs.Calls

/-!
# Reads on a tree that is served

What the questions about a tree give, where it shows a version: the leaf of a key is
the one the map of the version has (`terminal_eq`), the ancestors of a node are the
branches above the subtree with its hash (`ancestors_eq`), and the leaves under a root
the tree has had are those of the version at that root (`listing_eq`).
-/

namespace MerkleStore

namespace Store

open MerkleStore.Tree

variable {s : Store} {t : TreeId} {h : History} {v : Version} {es : List Edit}

theorem Serves.servedTree (hv : s.Serves t h v) : s.servedTree t = .ok h := by
  simp only [Store.servedTree, requireInService, hv.served, Bool.false_eq_true, if_false, bind,
    Except.bind, State.tree_eq_ok.mpr hv.tree]

/-- The leaf of a key is the one the last version has. -/
theorem terminal_eq (hv : s.Serves t h v) (key : Bytes) :
    s.terminal t key =
      match v.bindings key with
      | none => .error (.notFound (.key key t))
      | some value => .ok (.ofPair key value) := by
  have hs := hv.shows
  simp only [terminal, hv.servedTree, bind, Except.bind]
  cases hb : v.bindings key with
  | none =>
      have hkey : h.index.keys[key]? = none :=
        hs.index.keys_eq_none_iff.mpr (Version.bindings_eq_none_iff.mp hb)
      simp only [hkey]
      rfl
  | some value =>
      have hmem := (Version.bindings_eq_some_iff hs.distinct).mp hb
      have hkey : h.index.keys[key]? = some (Hash.terminal key value) :=
        (hs.index.keys key _).mpr ⟨_, hmem, rfl, rfl⟩
      have hnode : s.state.nodes[Hash.terminal key value]? =
          some (.terminal (.ofPair key value)) := by
        obtain ⟨a, ha, hn⟩ := Version.exists_of_mem_leaves hmem
        have hstored := hs.stored a ha
        rwa [hn, NodeMap.mem_stored] at hstored
      simp only [hkey, State.node, hnode]
      rfl

theorem exists_internal_of_mem_above {a c : Tree} {path : List Fork} (ha : a ∈ above c path) :
    ∃ n, a.node = .internal n := by
  induction path generalizing c with
  | nil => simp [above] at ha
  | cons f path ih =>
      rcases List.mem_cons.mp ha with rfl | ha
      · obtain ⟨n, hn, -⟩ := State.exists_internal_fill f c
        exact ⟨n, hn⟩
      · exact ih ha

/-- Stored branches are looked up one by one. -/
theorem mapM_branches {as : List Tree}
    (has : ∀ a ∈ as, s.state.nodes[a.hash]? = some a.node ∧ ∃ n, a.node = .internal n) :
    ((as.map Tree.hash).mapM fun ancestor => do
      match ← s.state.node ancestor with
      | .internal n => return n
      | .terminal _ => throw (.corruption (.terminalAncestor ancestor)) :
        Except Error (List Internal)) = .ok (as.filterMap fun a => a.node.internal?) := by
  induction as with
  | nil => rfl
  | cons a as ih =>
      obtain ⟨hget, n, hn⟩ := has a List.mem_cons_self
      have hrest := ih fun b hb => has b (List.mem_cons_of_mem _ hb)
      rw [List.map_cons, List.mapM_cons, hrest, State.node, hget, hn,
        List.filterMap_cons_some (by rw [hn]; rfl)]
      rfl

/-- The ancestors of a node are the branches above its place in the last version. -/
theorem ancestors_eq (hv : s.Serves t h v) (hash : Hash) :
    s.ancestors t hash =
      match v.bind (Tree.find? hash) with
      | none => .error (.notFound (.member hash t))
      | some (c, path) => .ok ((above c path).filterMap fun a => a.node.internal?) := by
  have hs := hv.shows
  simp only [ancestors, hv.servedTree, bind, Except.bind]
  cases v with
  | none =>
      rw [State.ancestry_of_empty hs.root]
      rfl
  | some top =>
      rw [State.ancestry_eq_find? hs, Option.bind_some]
      cases hf : top.find? hash with
      | none => rfl
      | some found =>
          obtain ⟨c, path⟩ := found
          obtain ⟨rfl, -⟩ := plug_of_find? hf
          -- everything above a place is under the root, hence stored, and has a child
          refine mapM_branches fun a ha => ?_
          have hmem : a ∈ (plug c path).subtrees := mem_subtrees_plug.mpr (.inr (.inl ha))
          exact ⟨NodeMap.getElem?_hash hs.stored hmem, exists_internal_of_mem_above ha⟩

theorem root_eq (hv : s.Serves t h v) (g : Nat) :
    s.root t g =
      match h.roots[g]? with
      | some r => .ok r
      | none => .error (.notFound (.generation g t)) := by
  simp only [root, hv.servedTree, bind, Except.bind]
  cases h.roots[g]? <;> rfl

theorem root_eq_ok (hv : s.Serves t h v) {g : Nat} {r : Root} :
    s.root t g = .ok r ↔ h.roots[g]? = some r := by
  rw [root_eq hv]
  cases h.roots[g]? <;> simp

theorem latestRoot_eq (hv : s.Serves t h v) : s.latestRoot t = .ok h.latest := by
  simp only [latestRoot, hv.servedTree, bind, Except.bind, pure, Except.pure]

theorem latestGeneration_eq (hv : s.Serves t h v) :
    s.latestGeneration t = .ok h.operations.length := by
  simp only [latestGeneration, latestRoot_eq hv, bind, Except.bind, pure, Except.pure,
    hv.inOrder.generation_latest]

theorem rootsBetween_eq (hv : s.Serves t h v) (first last : Nat) :
    s.rootsBetween t first last = .ok ((h.roots.take last).drop first) := by
  simp only [rootsBetween, hv.servedTree, bind, Except.bind, pure, Except.pure]

theorem operations_eq (hv : s.Serves t h v) {first last : Nat} (hle : first ≤ last)
    (hlast : last ≤ h.operations.length) :
    s.operations t first last = .ok (((h.operations.take last).drop first).zipWith
      (fun o r => o.withStatus r.status) ((h.roots.take (last + 1)).drop (first + 1))) := by
  simp only [operations, hv.servedTree, bind, Except.bind, hv.inOrder.generation_latest]
  rw [if_neg (by omega), if_neg (by omega)]
  rfl

/-- The leaves under a root, or none without a root. -/
def listing (s : Store) (t : TreeId) : Option Hash → Except Error (List Terminal)
  | none => .ok []
  | some top => s.keysValues t (some top)

/-- The leaves under a root that a tree has had are those of the version there. -/
theorem listing_eq (hv : s.Serves t h v) (hm : h.Made s.state.nodes t es v) {u : Version}
    (hu : u ∈ Edit.versions none es) : s.listing t u.hash = .ok u.leaves := by
  cases u with
  | none => rfl
  | some a =>
      have hstored : a.MadeOf s.state.nodes.stored := hm.stored_versions hu
      have hroot : ∃ r ∈ h.roots, r.node = some a.hash := by
        have hmem : Version.hash (some a) ∈ h.roots.map Root.node := by
          rw [hm.roots]
          exact List.mem_map_of_mem hu
        obtain ⟨r, hr, hnode⟩ := List.mem_map.mp hmem
        exact ⟨r, hr, hnode⟩
      have hfound : (h.roots.reverse.find? (·.node == some a.hash)).isSome := by
        simpa using hroot
      obtain ⟨r, hr⟩ := Option.isSome_iff_exists.mp hfound
      simp only [listing, Version.hash, Option.map_some, keysValues, requireRoot, lastRootWith,
        hv.servedTree, bind, Except.bind, pure, Except.pure, hr, preorder,
        NodeMap.nodes_preorder_hash hstored, NodeMap.filterMap_terminal?_subtrees]
      rfl

end Store

end MerkleStore
