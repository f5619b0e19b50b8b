import MerkleStore.Proofs.Consistency
import MerkleStore.Proofs.Reads
import MerkleStore.Proofs.Termination

/-!
# The ancestors of a node are found

Entries of the table of parents are never taken out, so the table mixes links of the latest tree
with stale ones. In every state, with whatever table, the way up that is taken turn by turn ends,
and where it arrives it has gone from child to stored parent (`State.finished_lookUp`,
`State.ascends_of_ancestry`). In every state that a run without a collision leads to it arrives from
every node of the latest tree, and there is no other way up from such a node
(`ancestry_exact`).
-/

namespace MerkleStore

/-! ## Ways up -/

namespace NodeMap

/-- A stored branch has this child. -/
def IsParent (nodes : NodeMap) (k h : Hash) : Prop :=
  ∃ n, nodes[k]? = some (.internal n) ∧ (n.left = h ∨ n.right = h)

/-- A way up from a node to a root: every hash is that of a parent of the one before, and the last
one is the root. -/
def Ascends (nodes : NodeMap) (root : Hash) : Hash → List Hash → Prop
  | h, [] => h = root
  | h, k :: ks => nodes.IsParent k h ∧ nodes.Ascends root k ks

end NodeMap

namespace State

open MerkleStore.Tree

variable {s : State} {parents : Std.ExtTreeMap Hash Hash} {root k p target : Hash}
  {path ks : List Hash} {fuel turns : Nat}

theorem hasChild_iff : s.hasChild p k = true ↔ s.nodes.IsParent p k := by
  rw [hasChild, NodeMap.IsParent]
  cases s.nodes[p]? with
  | none => simp
  | some n => cases n <;> simp

/-- Wherever a climb arrives from, it has gone a way up. -/
theorem ascends_of_climb (hc : s.climb parents root fuel k = some ks) :
    s.nodes.Ascends root k ks := by
  induction fuel generalizing k ks with
  | zero =>
      rw [climb] at hc
      split at hc <;> cases hc
      assumption
  | succ fuel ih =>
      rw [climb] at hc
      split at hc
      · cases hc
        assumption
      · split at hc
        · cases hc
        · split at hc
          · next hchild =>
              obtain ⟨rest, hrest, rfl⟩ := Option.map_eq_some_iff.mp hc
              exact ⟨hasChild_iff.mp hchild, ih hrest⟩
          · cases hc

/-- What is given as the ancestors of a node, in whatever state, is a way up to the latest root. -/
theorem ascends_of_ancestry {h : History} (ha : s.ancestry h target = some path) :
    ∃ root, h.latest.node = some root ∧ s.nodes.Ascends root target path := by
  rw [ancestry] at ha
  cases hroot : h.latest.node with
  | none =>
      rw [hroot] at ha
      cases ha
  | some root =>
      rw [hroot] at ha
      exact ⟨root, rfl, ascends_of_climb ha⟩

/-! ### Turn by turn -/

/-- The way up turn by turn: `path` has been gone so far. It is given up where there is no parent,
where the parent does not have the child, and where it has become longer than there are nodes. -/
def climbFrom (s : State) (parents : Std.ExtTreeMap Hash Hash) (root : Hash) :
    Nat → List Hash → Hash → Attempt (Option (List Hash))
  | 0, _, _ => .unfinished
  | turns + 1, path, k =>
      if k = root then .done (some path)
      else
        match parents[k]? with
        | none => .done none
        | some parent =>
            if ¬ s.hasChild parent k ∨ s.nodes.size < path.length then .done none
            else climbFrom s parents root turns (path ++ [parent]) parent

/-- Looks for the ancestors of a node turn by turn. -/
def lookUp (s : State) (turns : Nat) (h : History) (target : Hash) :
    Attempt (Option (List Hash)) :=
  match h.latest.node with
  | none => .done none
  | some root => s.climbFrom h.index.parents root turns [] target

/-- As long as the way up is not longer than the nodes are many, the rest of it is a climb. -/
theorem climbFrom_eq (hlength : path.length + fuel = s.nodes.size + 1) (hturns : fuel < turns) :
    s.climbFrom parents root turns path k =
      .done ((s.climb parents root fuel k).map (path ++ ·)) := by
  induction fuel generalizing turns path k with
  | zero =>
      obtain ⟨turns, rfl⟩ : ∃ n, turns = n + 1 := ⟨turns - 1, by omega⟩
      rw [climbFrom, climb]
      by_cases hroot : k = root
      · simp [hroot]
      · -- the way up has become too long
        have hlong (parent : Hash) : ¬ s.hasChild parent k ∨ s.nodes.size < path.length :=
          .inr (by omega)
        rw [if_neg hroot, if_neg hroot]
        cases parents[k]? with
        | none => rfl
        | some parent => exact if_pos (hlong parent)
  | succ fuel ih =>
      obtain ⟨turns, rfl⟩ : ∃ n, turns = n + 1 := ⟨turns - 1, by omega⟩
      rw [climbFrom, climb]
      by_cases hroot : k = root
      · simp [hroot]
      · rw [if_neg hroot, if_neg hroot]
        cases parents[k]? with
        | none => rfl
        | some parent =>
            have hshort : ¬ s.nodes.size < path.length := by omega
            dsimp only
            by_cases hchild : s.hasChild parent k = true
            · have hnext : s.climbFrom parents root turns (path ++ [parent]) parent =
                  .done ((s.climb parents root fuel parent).map (path ++ [parent] ++ ·)) :=
                ih (by rw [List.length_append, List.length_singleton]; omega) (by omega)
              rw [if_neg (by simp [hchild, hshort]), if_pos hchild, hnext, Option.map_map]
              congr 2
              funext rest
              simp
            · rw [if_pos (.inl hchild), if_neg hchild]
              rfl

/-- In every state the way up ends, with what is given as the ancestors. -/
theorem finished_lookUp (s : State) (h : History) (target : Hash)
    (hturns : s.nodes.size + 2 ≤ turns) :
    s.lookUp turns h target = .finished (.ok (s.ancestry h target)) := by
  rw [lookUp, ancestry]
  cases h.latest.node with
  | none => rfl
  | some root =>
      dsimp only
      have hclimb : s.climbFrom h.index.parents root turns [] target =
          .done ((s.climb h.index.parents root (s.nodes.size + 1) target).map ([] ++ ·)) :=
        climbFrom_eq (by simp) (by omega)
      rw [hclimb]
      simp [Attempt.done]

/-! ## Trees -/

/-- The ways up in a tree are those that lead over the branches above a subtree. -/
theorem ascends_iff {t : Tree} (ht : t.MadeOf s.nodes.stored) :
    s.nodes.Ascends t.hash k ks ↔
      ∃ c path, plug c path = t ∧ c.hash = k ∧ (above c path).map Tree.hash = ks := by
  constructor
  · intro hks
    induction ks generalizing k with
    | nil => exact ⟨t, [], rfl, hks.symm, rfl⟩
    | cons p ks ih =>
        obtain ⟨hparent, hrest⟩ := hks
        obtain ⟨a, path, rfl, rfl, rfl⟩ := ih hrest
        obtain ⟨f, c, rfl, rfl⟩ := exists_fill_of_hasChild
          (ht.of_mem (mem_subtrees_plug_self a path)) (hasChild_iff.mpr hparent)
        exact ⟨c, f :: path, rfl, rfl, rfl⟩
  · rintro ⟨c, path, rfl, rfl, rfl⟩
    induction path generalizing c with
    | nil => rfl
    | cons f path ih =>
        have hmem : f.fill c ∈ (plug c (f :: path)).subtrees := mem_subtrees_plug_self _ path
        exact ⟨hasChild_iff.mp (hasChild_fill (ht.of_mem hmem)), ih (f.fill c) ht⟩

end State

/-- The branches above a place in a tree, with their hashes. -/
theorem map_hash_branches_above (c : Tree) (path : List Tree.Fork) :
    ((Tree.above c path).filterMap fun a => a.node.internal?).map Internal.hash =
      (Tree.above c path).map Tree.hash := by
  induction path generalizing c with
  | nil => rfl
  | cons f path ih =>
      obtain ⟨n, hn, -⟩ := State.exists_internal_fill f c
      have hhash : n.hash = (f.fill c).hash := by rw [← Tree.hash_node, hn]; rfl
      rw [Tree.above, List.filterMap_cons_some (by rw [hn]; rfl), List.map_cons, List.map_cons,
        hhash, ih]

/-! ## Runs -/

namespace Store

/-- What is said about the ancestors of a node in the latest tree is exact. -/
structure KnowsAncestors (s : Store) (t : TreeId) (h : History) (k : Hash) : Prop where
  /-- They are found if the latest root leads to the node, and only then. -/
  found : (∃ path, s.state.ancestry h k = some path) ↔
    ∃ root, h.latest.node = some root ∧ s.state.nodes.Reaches root k
  /-- There is no other way up than the one that is found. -/
  only : ∀ path : List Hash, s.state.ancestry h k = some path ↔
    ∃ root, h.latest.node = some root ∧ s.state.nodes.Ascends root k path
  /-- The branches on it are given. -/
  branches : ∀ path : List Hash, s.state.ancestry h k = some path →
    ∃ ns : List Internal, s.ancestors t k = .ok ns ∧ ns.map Internal.hash = path ∧
      ∀ n ∈ ns, s.state.nodes[n.hash]? = some (.internal n)
  /-- For a node that is not in the tree nothing is given. -/
  missing : s.state.ancestry h k = none → s.ancestors t k = .error (.notFound (.member k t))

variable {s : Store} {t : TreeId} {h : History} {v : Version}

theorem Serves.knowsAncestors (hv : s.Serves t h v) (k : Hash) :
    s.KnowsAncestors t h k := by
  have hs := hv.shows
  cases v with
  | none =>
      have hroot : h.latest.node = none := hs.root
      have hnone : s.state.ancestry h k = none := State.ancestry_of_empty hroot
      refine ⟨by simp [hnone, hroot], by simp [hnone, hroot], by simp [hnone], fun _ => ?_⟩
      rw [ancestors_eq hv]
      rfl
  | some top =>
      have hroot : h.latest.node = some top.hash := hs.root
      have hstored : top.MadeOf s.state.nodes.stored := hs.stored
      have hfind := State.ancestry_eq_find? hs k
      have hancestors := ancestors_eq hv k
      rw [Option.bind_some] at hancestors
      have honly (path : List Hash) : s.state.ancestry h k = some path ↔
          s.state.nodes.Ascends top.hash k path := by
        rw [State.ascends_iff hstored]
        exact State.ancestry_eq_some_iff hstored (hs.index.parents top rfl) hroot
      refine ⟨⟨?_, ?_⟩, by simpa [hroot] using honly, ?_, ?_⟩
      · rintro ⟨path, hpath⟩
        obtain ⟨c, p, rfl, rfl, -⟩ := (State.ascends_iff hstored).mp ((honly path).mp hpath)
        exact ⟨_, hroot, (NodeMap.reaches_iff hstored).mpr
          ⟨c, Tree.mem_subtrees_plug_self c p, rfl⟩⟩
      · rintro ⟨root, hsome, hreach⟩
        obtain rfl : top.hash = root := Option.some.inj (hroot.symm.trans hsome)
        obtain ⟨c, hc, hhash⟩ := (NodeMap.reaches_iff hstored).mp hreach
        cases hf : top.find? k with
        | none => exact absurd hhash (Tree.hash_ne_of_find?_eq_none hf hc)
        | some place => exact ⟨_, by rw [hfind, hf]; rfl⟩
      · intro path hpath
        rw [hfind] at hpath
        obtain ⟨⟨c, p⟩, hf, rfl⟩ := Option.map_eq_some_iff.mp hpath
        rw [hf] at hancestors
        obtain ⟨rfl, -⟩ := Tree.plug_of_find? hf
        refine ⟨_, hancestors, map_hash_branches_above c p, fun n hn => ?_⟩
        obtain ⟨a, ha, hbranch⟩ := List.mem_filterMap.mp hn
        have hmem : a ∈ (Tree.plug c p).subtrees := Tree.mem_subtrees_plug.mpr (.inr (.inl ha))
        obtain ⟨m, hnode⟩ := exists_internal_of_mem_above ha
        obtain rfl : m = n := by simpa [hnode, Node.internal?] using hbranch
        have hhash : m.hash = a.hash := by rw [← Tree.hash_node, hnode]; rfl
        rw [hhash, NodeMap.getElem?_hash hstored hmem, hnode]
      · intro hnone
        rw [hfind, Option.map_eq_none_iff] at hnone
        rw [hancestors, hnone]

end Store

/-- In every state, with whatever nodes and table of parents, looking for the ancestors of a node
ends, and what is found is a way up to the latest root. In every state that a run without a
collision leads to, they are found for all nodes of the latest tree and for no others, and are the
only way up from there. -/
theorem ancestry_exact :
    (∀ (s : State) (h : History) (k : Hash),
      (∀ turns, s.nodes.size + 2 ≤ turns →
        s.lookUp turns h k = .finished (.ok (s.ancestry h k))) ∧
      ∀ path : List Hash, s.ancestry h k = some path →
        ∃ root, h.latest.node = some root ∧ s.nodes.Ascends root k path) ∧
    ∀ (s₀ : Store) (steps : List Step), s₀.IsNew → CollisionFree (contents s₀ steps) →
      ∃ s, run s₀ steps = .ok s ∧ ∀ (t : TreeId) (h : History) (k : Hash),
        s.state.trees[t]? = some h → s.KnowsAncestors t h k := by
  refine ⟨fun s h k => ⟨fun _ => s.finished_lookUp h k, fun _ => State.ascends_of_ancestry⟩,
    fun s₀ steps hnew hc => ?_⟩
  obtain ⟨s, hrun, hs, -, -⟩ := (hnew.intact _).exists_run
    (hc.injOn_hash fun _ hn => hash_of_mem_contents hn) steps fun n hn => hn
  refine ⟨s, hrun, fun t h k ht => ?_⟩
  obtain ⟨-, v, -, hv⟩ := hs.exists_serves ht
  exact hv.knowsAncestors k

/-- Before the deletion of the small run the leaf of the first key has one branch above it. -/
theorem ancestry_of_sampleSteps :
    CollisionFree (contents (.create sampleCodec) (sampleSteps.take 4)) ∧ ∃ s h p,
      run (.create sampleCodec) (sampleSteps.take 4) = .ok s ∧ s.state.trees[sampleTree]? = some h ∧
      s.state.ancestry h (.terminal [1] [10]) = some [p] ∧
      s.KnowsAncestors sampleTree h (.terminal [1] [10]) := by
  have hc : CollisionFree (contents (.create sampleCodec) (sampleSteps.take 4)) := by decide +kernel
  obtain ⟨s, hrun, hknows⟩ :=
    ancestry_exact.2 (.create sampleCodec) (sampleSteps.take 4) (.inr ⟨_, rfl⟩) hc
  have heval : (do
      let s ← (run (.create sampleCodec) (sampleSteps.take 4)).toOption
      let h ← s.state.trees[sampleTree]?
      return (s.state.ancestry h (.terminal [1] [10])).map List.length) = some (some 1) := by
    decide +kernel
  simp only [hrun, Except.toOption, bind, pure, Option.bind_some, Option.bind_eq_some_iff,
    Option.some.injEq, Option.map_eq_some_iff, List.length_eq_one_iff] at heval
  obtain ⟨h, ht, _, hpath, p, rfl⟩ := heval
  exact ⟨hc, s, h, p, hrun, ht, hpath, hknows sampleTree h _ ht⟩

end MerkleStore
