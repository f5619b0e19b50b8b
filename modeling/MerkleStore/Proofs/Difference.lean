import MerkleStore.Proofs.Changes
import MerkleStore.Proofs.Locality
import MerkleStore.Proofs.VersionedMap

/-!
# Differences between two roots

The difference between two roots of a tree is worked out from the leaves that lie in no subtree
whose hash is to be found anywhere under the other root. Nothing is missed by this and nothing is
told twice: a subtree that occurs under both roots has its leaves in both maps, wherever they
stand, and a leaf that is in both maps is such a subtree itself. So what is left are just the
leaves that one of the maps does not have (`NodeMap.terminalsOutside_hash`), and the changes are
the difference of the two maps (`Store.Serves.exists_diff`).
-/

namespace MerkleStore

/-! ## Walks that leave out subtrees -/

namespace Tree

/-- The subtrees that a walk visits which leaves out whatever lies under some hashes. -/
def outside (first : Side) (skip : Hash → Bool) : Tree → List Tree
  | leaf key value => if skip (leaf key value).hash then [] else [leaf key value]
  | branch l r =>
      if skip (branch l r).hash then []
      else
        match first with
        | .left => branch l r :: (l.outside first skip ++ r.outside first skip)
        | .right => branch l r :: (r.outside first skip ++ l.outside first skip)

variable {t s : Tree} {first : Side} {skip : Hash → Bool} {w : Version}

/-- A walk that leaves nothing out visits every subtree. -/
theorem mem_outside_of_forall (hskip : ∀ h, skip h = false) :
    s ∈ t.outside first skip ↔ s ∈ t.subtrees := by
  induction t with
  | leaf key value => simp [outside, hskip, subtrees]
  | branch l r ihl ihr => cases first <;> simp [outside, hskip, subtrees, ihl, ihr, or_comm]

theorem ofPair_mem_leaves {key value : Bytes} :
    Terminal.ofPair key value ∈ w.leaves ↔ leaf key value ∈ w.subtrees := by
  constructor
  · intro hmem
    obtain ⟨s, hs, hnode⟩ := Version.exists_of_mem_leaves hmem
    cases s with
    | leaf k v =>
        simp only [node, Node.terminal.injEq, Terminal.ofPair, Terminal.mk.injEq] at hnode
        obtain ⟨-, rfl, rfl⟩ := hnode
        exact hs
    | branch l r => simp [node] at hnode
  · intro hmem
    cases w with
    | none => cases hmem
    | some u => exact (leaves_sublist hmem).subset List.mem_cons_self

/-- If just the subtrees of another version are left out, just its leaves are. -/
theorem filterMap_outside (hskip : ∀ s ∈ t.subtrees, skip s.hash = true ↔ s ∈ w.subtrees) :
    ((t.outside .left skip).map Tree.node).filterMap Node.terminal? =
      t.leaves.filter (· ∉ w.leaves) := by
  induction t with
  | leaf key value =>
      have hleaf := hskip _ (self_mem_subtrees _)
      rw [← ofPair_mem_leaves] at hleaf
      by_cases hmem : Terminal.ofPair key value ∈ w.leaves
      · simp [outside, hleaf.mpr hmem, leaves, hmem]
      · have hno : skip (leaf key value).hash = false := by
          rw [← Bool.not_eq_true]
          exact fun hyes => hmem (hleaf.mp hyes)
        simp [outside, hno, leaves, hmem, node, Node.terminal?]
  | branch l r ihl ihr =>
      have hl := ihl fun s hs => hskip s (by simp [subtrees, hs])
      have hr := ihr fun s hs => hskip s (by simp [subtrees, hs])
      have htop := hskip _ (self_mem_subtrees _)
      by_cases hmem : branch l r ∈ w.subtrees
      · -- a subtree of the other version has all of its leaves there
        have hall : ∀ n ∈ (branch l r).leaves, n ∈ w.leaves := by
          intro n hn
          cases w with
          | none => cases hmem
          | some u => exact (leaves_sublist hmem).subset hn
        rw [outside, if_pos (htop.mpr hmem)]
        exact (List.filter_eq_nil_iff.mpr fun n hn => by simpa using hall n hn).symm
      · have hno : skip (branch l r).hash = false := by
          rw [← Bool.not_eq_true]
          exact fun hyes => hmem (htop.mp hyes)
        rw [outside, if_neg (by simp [hno]), List.map_cons, List.filterMap_cons_none rfl,
          List.map_append, List.filterMap_append, hl, hr, leaves, List.filter_append]

end Tree

namespace NodeMap

variable {nodes : NodeMap} {t : Tree} {v w : Version}

/-- The walk under a stored tree that leaves out whatever lies under some hashes. -/
theorem walkWithin_outside {depth : Nat} (ht : t.MadeOf nodes.stored) (hd : t.height ≤ depth)
    (first : Side) (skip : Hash → Bool) :
    nodes.walkWithin first skip depth t.hash = ⟨(t.outside first skip).map visit, none⟩ := by
  induction t generalizing depth with
  | leaf key value =>
      obtain ⟨depth, rfl⟩ := Nat.exists_eq_add_of_le' hd
      have hnode := getElem?_top ht
      simp only [Tree.node] at hnode
      simp only [Tree.height, walkWithin, hnode, Tree.outside]
      split
      · rfl
      · rfl
  | branch l r ihl ihr =>
      obtain ⟨depth, rfl⟩ := Nat.exists_eq_add_of_le' hd
      have hnode := getElem?_top ht
      simp only [Tree.node] at hnode
      have hle : max l.height r.height ≤ depth + max l.height r.height := Nat.le_add_left _ _
      have hl := ihl ht.left ((Nat.le_max_left _ _).trans hle)
      have hr := ihr ht.right ((Nat.le_max_right _ _).trans hle)
      simp only [Tree.height, ← Nat.add_assoc, walkWithin, hnode, Tree.outside]
      split
      · rfl
      · cases first <;>
          simp [Internal.ofPair, Internal.child, Side.other, hl, hr, visit, Tree.node, Tree.hash]

theorem walk_outside (ht : t.MadeOf nodes.stored) (first : Side) (skip : Hash → Bool) :
    nodes.walk first skip t.hash = ⟨(t.outside first skip).map visit, none⟩ :=
  walkWithin_outside ht (Nat.le_succ_of_le (height_le_size ht)) first skip

/-- The hashes under the root of a stored version are those of its subtrees. -/
theorem exists_hashesUnder (hv : v.MadeOf nodes.stored) :
    ∃ hashes, nodes.hashesUnder v.hash = .ok hashes ∧
      ∀ h, hashes.contains h = true ↔ ∃ s ∈ v.subtrees, s.hash = h := by
  cases v with
  | none => exact ⟨∅, rfl, by simp [Version.subtrees]⟩
  | some t =>
      refine ⟨.ofList (((t.outside .right fun _ => false).map visit).map Prod.fst), ?_, ?_⟩
      · simp only [Version.hash, Option.map_some, hashesUnder, walk_outside hv]
      · intro h
        rw [Std.ExtTreeSet.contains_ofList, List.contains_iff_mem, List.map_map, List.mem_map]
        simp only [Tree.mem_outside_of_forall (fun _ => rfl)]
        rfl

/-- The leaves of a stored version that do not lie in a subtree of another one are those that the
other one does not have. -/
theorem terminalsOutside_hash (hv : v.MadeOf nodes.stored) (hw : w.MadeOf nodes.stored)
    {hashes : Std.ExtTreeSet Hash}
    (hhashes : ∀ h, hashes.contains h = true ↔ ∃ s ∈ w.subtrees, s.hash = h) :
    nodes.terminalsOutside hashes v.hash = .ok (v.leaves.filter (· ∉ w.leaves)) := by
  cases v with
  | none => rfl
  | some t =>
      have hskip : ∀ s ∈ t.subtrees, hashes.contains s.hash = true ↔ s ∈ w.subtrees := by
        intro s hs
        rw [hhashes]
        constructor
        · -- stored trees with one hash are one tree
          rintro ⟨s', hs', hhash⟩
          exact eq_of_hash_stored (hw.of_mem hs') (hv.of_mem hs) hhash ▸ hs'
        · exact fun hmem => ⟨s, hmem, rfl⟩
      have hnodes : ((t.outside .left fun h => hashes.contains h).map visit).map Prod.snd =
          (t.outside .left fun h => hashes.contains h).map Tree.node := by
        rw [List.map_map]
        rfl
      simp only [Version.hash, Option.map_some, terminalsOutside, walk_outside hv, Trace.nodes,
        bind, Except.bind, pure, Except.pure, hnodes, Tree.filterMap_outside hskip]
      rfl

end NodeMap

/-! ## Two versions of a tree -/

/-- The leaves that another version does not have are the bindings that it does not have. -/
theorem Version.beyond_filter {v w : Version} (hv : v.Distinct) (hw : w.Distinct) :
    Bindings.Beyond v.bindings w.bindings (v.leaves.filter (· ∉ w.leaves)) where
  mem := by
    intro key value
    rw [List.mem_filter, bindings_eq_some_iff hv, Ne, bindings_eq_some_iff hw]
    simp
  eq_ofPair := fun n hn => eq_ofPair_of_mem_leaves (List.mem_of_mem_filter hn)
  nodup := List.Nodup.sublist (List.filter_sublist.map _) hv

namespace Store

variable {s : Store} {t : TreeId} {h : History} {v a b : Version} {es : List Edit} {top : Hash}
  {first last : Option Hash}

theorem requireRoot_eq_ok (hv : s.Serves t h v) {r : Root} (hr : r ∈ h.roots)
    (htop : r.node = some top) : s.requireRoot t top = .ok () := by
  have hfound : (h.roots.reverse.find? (·.node == some top)).isSome := by
    simpa using ⟨r, hr, htop⟩
  obtain ⟨r', hr'⟩ := Option.isSome_iff_exists.mp hfound
  simp only [requireRoot, lastRootWith, hv.servedTree, bind, Except.bind, pure, Except.pure, hr']

theorem requireRoot_eq_error (hv : s.Serves t h v) (hno : ∀ r ∈ h.roots, r.node ≠ some top) :
    s.requireRoot t top = .error (.notFound (.root top t)) := by
  have hnone : h.roots.reverse.find? (·.node == some top) = none := by
    simpa using hno
  simp only [requireRoot, lastRootWith, hv.servedTree, bind, Except.bind, pure, Except.pure,
    hnone]
  rfl

/-- The root of a version that the tree has shown is found. -/
theorem forM_requireRoot (hv : s.Serves t h v) (hm : h.Made s.state.nodes t es v)
    (ha : a ∈ Edit.versions none es) : a.hash.forM (s.requireRoot t) = .ok () := by
  cases a with
  | none => rfl
  | some u =>
      have hmem : Version.hash (some u) ∈ h.roots.map Root.node := by
        rw [hm.roots]
        exact List.mem_map_of_mem ha
      obtain ⟨r, hr, hnode⟩ := List.mem_map.mp hmem
      exact requireRoot_eq_ok hv hr hnode

/-- Two versions that a tree has shown are compared, and the difference of their maps is told. -/
theorem Serves.exists_diff (hv : s.Serves t h v) (hm : h.Made s.state.nodes t es v)
    (ha : a ∈ Edit.versions none es) (hb : b ∈ Edit.versions none es) :
    ∃ cs, s.diff t a.hash b.hash = .ok cs ∧ Bindings.IsDifference a.bindings b.bindings cs := by
  have hstoredA := hm.stored_versions ha
  have hstoredB := hm.stored_versions hb
  have hservice : s.requireInService t = .ok () := by
    rw [requireInService, hv.served]
    rfl
  simp only [diff_eq, hservice, forM_requireRoot hv hm ha, forM_requireRoot hv hm hb, bind,
    Except.bind]
  by_cases heq : a.hash = b.hash
  · -- one hash at both roots is one version
    obtain rfl := Version.eq_of_hash s.state.nodes.injOn_hash_stored hstoredA hstoredB heq
    exact ⟨[], by rw [if_pos rfl]; rfl, Bindings.isDifference_nil _⟩
  · obtain ⟨hashesA, hokA, hunderA⟩ := NodeMap.exists_hashesUnder hstoredA
    obtain ⟨hashesB, hokB, hunderB⟩ := NodeMap.exists_hashesUnder hstoredB
    have hdistinct {u : Version} (hu : u ∈ Edit.versions none es) : u.Distinct := by
      obtain ⟨g, hg⟩ := List.mem_iff_getElem?.mp hu
      exact (hm.leads.split hg).1.distinct Edit.distinct_none
    refine ⟨changesBetween (a.leaves.filter (· ∉ b.leaves)) (b.leaves.filter (· ∉ a.leaves)), ?_,
      Bindings.isDifference_changesBetween (Version.beyond_filter (hdistinct ha) (hdistinct hb))
        (Version.beyond_filter (hdistinct hb) (hdistinct ha))⟩
    rw [if_neg heq]
    simp only [hokA, hokB, NodeMap.terminalsOutside_hash hstoredA hstoredB hunderB,
      NodeMap.terminalsOutside_hash hstoredB hstoredA hunderA]
    rfl

/-! ## Roots that a tree has had -/

/-- A root that a tree has had, with the map that the writes up to there have made; no root
stands for the empty tree. -/
inductive HasHad (s : Store) (t : TreeId) (ws : List Write) : Option Hash → Bindings → Prop
  | empty : HasHad s t ws none fun _ => none
  | generation {g : Nat} {r : Root} (hr : s.root t g = .ok r) :
      HasHad s t ws r.node (Bindings.after (ws.take g))

/-- A hash that was at the root of no generation of a tree. -/
def NeverHad (s : Store) (t : TreeId) (top : Hash) : Prop :=
  ∀ (g : Nat) (r : Root), s.root t g = .ok r → r.node ≠ some top

/-- The difference between two roots of a tree is that of the maps that are listed under them. -/
structure Compares (s : Store) (t : TreeId) (first last : Option Hash) (m m' : Bindings)
    (cs : List Change) : Prop where
  result : s.diff t first last = .ok cs
  exact : Bindings.IsDifference m m' cs
  /-- One change for each key that is not bound alike, and none for any other. -/
  keys : ∀ key, m key ≠ m' key ↔ ∃! c, c ∈ cs ∧ c.key = key
  /-- The changes lead from the first map to the second one. -/
  writes : (cs.map Change.write).foldl Write.apply m = m'
  /-- The difference the other way round. -/
  back : s.diff t last first = .ok (cs.map Change.mirror)
  listings : ∃ ns ns', s.listing t first = .ok ns ∧ s.listing t last = .ok ns' ∧
    ∀ key value, (m key = some value ↔ Terminal.ofPair key value ∈ ns) ∧
      (m' key = some value ↔ Terminal.ofPair key value ∈ ns')

/-- A root that a tree has had is that of a version, and the map is the one of this version. -/
theorem HasHad.exists_version {root : Option Hash} {m : Bindings} (hv : s.Serves t h v)
    (hm : h.Made s.state.nodes t es v) (hhad : s.HasHad t (s.writesOf t) root m) :
    ∃ u ∈ Edit.versions none es, u.Distinct ∧ root = u.hash ∧ m = u.bindings := by
  cases hhad with
  | empty => exact ⟨none, List.mem_cons_self, Edit.distinct_none, rfl, rfl⟩
  | @generation g r hr =>
      obtain ⟨u, hu, hnode⟩ := hm.node_root ((root_eq_ok hv).mp hr)
      obtain ⟨hbefore, -⟩ := hm.leads.split hu
      refine ⟨u, List.mem_of_getElem? hu, hbefore.distinct Edit.distinct_none, hnode, ?_⟩
      rw [hbefore.bindings, writesOf_made hv.tree hm, List.map_take]

/-- Any two roots that a tree has had are compared. -/
theorem Serves.exists_compares {m m' : Bindings} (hv : s.Serves t h v)
    (hm : h.Made s.state.nodes t es v) (hfirst : s.HasHad t (s.writesOf t) first m)
    (hlast : s.HasHad t (s.writesOf t) last m') : ∃ cs, s.Compares t first last m m' cs := by
  obtain ⟨a, ha, hda, rfl, rfl⟩ := hfirst.exists_version hv hm
  obtain ⟨b, hb, hdb, rfl, rfl⟩ := hlast.exists_version hv hm
  obtain ⟨cs, hcs, hd⟩ := hv.exists_diff hm ha hb
  obtain ⟨cs', hcs', hd'⟩ := hv.exists_diff hm hb ha
  refine ⟨cs, hcs, hd, hd.existsUnique_iff, hd.foldl_write, ?_, a.leaves, b.leaves,
    listing_eq hv hm ha, listing_eq hv hm hb, fun key value => ?_⟩
  · rw [hcs', hd'.unique hd.mirror]
  · exact ⟨Version.bindings_eq_some_iff hda, Version.bindings_eq_some_iff hdb⟩

/-- A root is found, or the tree has never had it. -/
theorem Serves.requireRoot_cases (hv : s.Serves t h v) (top : Hash) :
    s.requireRoot t top = .ok () ∧ ¬ s.NeverHad t top ∨
      s.requireRoot t top = .error (.notFound (.root top t)) ∧ s.NeverHad t top := by
  by_cases hhad : ∃ r ∈ h.roots, r.node = some top
  · obtain ⟨r, hr, htop⟩ := hhad
    refine .inl ⟨requireRoot_eq_ok hv hr htop, fun hnever => ?_⟩
    obtain ⟨g, hg⟩ := List.mem_iff_getElem?.mp hr
    exact hnever g r ((root_eq_ok hv).mpr hg) htop
  · push Not at hhad
    refine .inr ⟨requireRoot_eq_error hv hhad, fun g r hr => ?_⟩
    exact hhad r (List.mem_of_getElem? ((root_eq_ok hv).mp hr))

/-- Nothing is compared with a hash that was never a root of the tree. -/
theorem Serves.diff_eq_notFound (hv : s.Serves t h v)
    (hno : ∃ top, (first = some top ∨ last = some top) ∧ s.NeverHad t top) :
    ∃ top, (first = some top ∨ last = some top) ∧ s.NeverHad t top ∧
      s.diff t first last = .error (.notFound (.root top t)) := by
  have hservice : s.requireInService t = .ok () := by
    rw [requireInService, hv.served]
    rfl
  -- the first root is looked for before the last one
  have hfails {x : Hash} (hx : s.NeverHad t x)
      (hplace : first = some x ∨ first.forM (s.requireRoot t) = .ok () ∧ last = some x) :
      s.diff t first last = .error (.notFound (.root x t)) := by
    obtain ⟨herror, -⟩ := (hv.requireRoot_cases x).resolve_left fun hfound => hfound.2 hx
    rcases hplace with rfl | ⟨hok, rfl⟩
    · simp [diff_eq, hservice, herror, bind, Except.bind]
    · simp [diff_eq, hservice, hok, herror, bind, Except.bind]
  obtain ⟨top, htop, hnever⟩ := hno
  cases first with
  | none =>
      have hlast : last = some top := by simpa using htop
      exact ⟨top, .inr hlast, hnever, hfails hnever (.inr ⟨rfl, hlast⟩)⟩
  | some x =>
      rcases hv.requireRoot_cases x with ⟨hok, hhad⟩ | ⟨-, hnever'⟩
      · have hlast : last = some top := by
          refine htop.resolve_left fun heq => hhad ?_
          rwa [Option.some.inj heq]
        exact ⟨top, .inr hlast, hnever, hfails hnever (.inr ⟨hok, hlast⟩)⟩
      · exact ⟨x, .inl rfl, hnever', hfails hnever' (.inl rfl)⟩

end Store

/-- In every state that a run without a collision leads to, the difference between two roots that a
tree has had, or the empty tree, is that of the maps at these roots, key by key; and no
other hash is taken for a root. -/
theorem difference_exact {s₀ : Store} (hnew : s₀.IsNew) {steps : List Step}
    (hc : CollisionFree (contents s₀ steps)) :
    ∃ s, run s₀ steps = .ok s ∧ ∀ t, s.hasTree t = true →
      (∀ g ≤ (writesTo t s₀ steps).length, ∃ r, s.root t g = .ok r) ∧
      (∀ first last m m', s.HasHad t (writesTo t s₀ steps) first m →
        s.HasHad t (writesTo t s₀ steps) last m' → ∃ cs, s.Compares t first last m m' cs) ∧
      ∀ first last, (∃ top, (first = some top ∨ last = some top) ∧ s.NeverHad t top) →
        ∃ top, (first = some top ∨ last = some top) ∧ s.NeverHad t top ∧
          s.diff t first last = .error (.notFound (.root top t)) := by
  have hU := hc.injOn_hash fun _ hn => hash_of_mem_contents hn
  obtain ⟨s, hrun, hs, -, hwrites⟩ := (hnew.intact _).exists_run hU steps fun _ hn => hn
  refine ⟨s, hrun, fun t ht => ?_⟩
  obtain ⟨h, ht⟩ := Store.hasTree_iff.mp ht
  obtain ⟨es, v, hm, hv⟩ := hs.exists_serves ht
  have hws : s.writesOf t = writesTo t s₀ steps := by
    rw [hwrites, hnew.writesOf, List.nil_append]
  rw [← hws]
  refine ⟨fun g hg => ?_, fun first last m m' => hv.exists_compares hm,
    fun first last => hv.diff_eq_notFound⟩
  obtain ⟨r, -, hr, -⟩ := (hs.refines ht).listing g hg
  exact ⟨r, hr⟩

/-- Between the last two of these writes one key comes back with another value, beside a leaf that
has stayed. -/
theorem difference_of_sampleSteps :
    let steps := sampleSteps ++
      [.call (.insert sampleTree [1] [11] (some (.terminal [2] [20])) (some .right))]
    let ws := writesTo sampleTree .volatile steps
    CollisionFree (contents .volatile steps) ∧ ∃ s r r' cs, run .volatile steps = .ok s ∧
      s.root sampleTree 2 = .ok r ∧ s.root sampleTree 4 = .ok r' ∧
      s.Compares sampleTree r.node r'.node (Bindings.after (ws.take 2)) (Bindings.after (ws.take 4))
        cs ∧
      cs = [.modified (.ofPair [1] [10]) (.ofPair [1] [11])] ∧
      s.diff sampleTree (some default) none = .error (.notFound (.root default sampleTree)) := by
  intro steps ws
  have hc : CollisionFree (contents .volatile steps) := by decide +kernel
  obtain ⟨s, hrun, hexact⟩ := difference_exact (.inl rfl) hc
  have heval : (do
      let s ← (run .volatile steps).toOption
      let h ← s.state.trees[sampleTree]?
      let r ← (s.root sampleTree 2).toOption
      let r' ← (s.root sampleTree 4).toOption
      let cs ← (s.diff sampleTree r.node r'.node).toOption
      return (h.roots.all fun r => r.node ≠ some default, cs)) =
        some (true, [.modified (.ofPair [1] [10]) (.ofPair [1] [11])]) := by
    decide +kernel
  simp only [hrun, Except.toOption, bind, Option.bind_some, Option.bind_eq_some_iff, pure,
    Option.some.injEq, Prod.mk.injEq, List.all_eq_true, decide_eq_true_eq] at heval
  obtain ⟨h, ht, r, hr, r', hr', cs, hcs, hno, rfl⟩ := heval
  obtain ⟨-, hcompares, hnever⟩ := hexact sampleTree (Store.hasTree_iff.mpr ⟨h, ht⟩)
  have hr := eq_ok_of_toOption hr
  have hr' := eq_ok_of_toOption hr'
  obtain ⟨cs, hcompared⟩ := hcompares _ _ _ _ (.generation hr) (.generation hr')
  obtain rfl := Except.ok.inj (hcompared.result.symm.trans (eq_ok_of_toOption hcs))
  have hdefault : s.NeverHad sampleTree default := by
    intro g x hx
    obtain ⟨h', ht', hg⟩ := Store.exists_of_root hx
    obtain rfl : h' = h := Option.some.inj (ht'.symm.trans ht)
    exact hno x (List.mem_of_getElem? hg)
  obtain ⟨top, htop, -, hfails⟩ := hnever (some default) none ⟨default, .inl rfl, hdefault⟩
  obtain rfl : top = default := by simpa [eq_comm] using htop
  exact ⟨hc, s, r, r', _, hrun, hr, hr', hcompared, rfl, hfails⟩

end MerkleStore
