import MerkleStore.Proofs.Reads
import MerkleStore.Proofs.Run

/-!
# One tree among others

All trees keep their nodes in one map, and still what a call does to a tree depends on nothing but
this tree. Two intact stores that have the same roots and operations of a tree
(`Store.SameAt`) have the same nodes under each of its roots, since what is named by its content
cannot stand in the way of anything else. So they give the same answers about the tree
(`Store.SameAt.answer_eq`), and a call on it gives the same result in both and is the same
events (`Store.SameAt.agree_perform`).

Only a frame that a journal refuses makes a difference: its size depends on which nodes are
stored already.
-/

namespace MerkleStore

/-- Whether a call failed because the journal refused a frame. -/
def isRefusal {α : Type} : Except Error α → Bool
  | .ok _ => false
  | .error err => err.refusesFrame

/-- The tree that a question is about. -/
def Question.tree? : Question → Option TreeId
  | hasTree t | isOutOfService t | latestRoot t | latestGeneration t | root t _
  | rootsBetween t _ _ | lastRootWith t _ | terminal t _ | ancestors t _ | keysValues t _
  | operations t _ _ | diff t _ _ => some t
  | treeIds | numNodes | node _ | preorder _ => none

/-- The tree that a call can change. -/
def Call.tree? : Call → Option TreeId
  | .addTree t | .insert t .. | .delete t _ | .confirm t _ | .replay t _ => some t
  | .audit | .ask _ => none

/-- Two ways to go on from one result are the same if they are for the value it has. -/
theorem bind_congr_ok {ε α β : Type} {x : Except ε α} {f g : α → Except ε β}
    (h : ∀ a, x = .ok a → f a = g a) : (x >>= f) = (x >>= g) := by
  cases x with
  | error e => rfl
  | ok a => exact h a rfl

/-! ## What events do to each tree -/

/-- What becomes of the history of its tree. -/
def Event.next : Event → Option History → Option History
  | start t, _ => some (.start (.empty t))
  | edit _ e, h => h.map fun h => h.extend e
  | confirm _ g, h => h.map fun h => h.updateStatus g .committed

theorem Event.written_next (ev : Event) {h k : Option History}
    (hw : h.map History.written = k.map History.written) :
    (ev.next h).map History.written = (ev.next k).map History.written := by
  cases h with
  | none =>
      have hk : k = none := Option.map_eq_none_iff.mp hw.symm
      rw [hk]
  | some h =>
      obtain ⟨k, rfl, hk⟩ := Option.map_eq_some_iff.mp hw.symm
      simp only [History.written, Prod.mk.injEq] at hk
      cases ev with
      | start t => rfl
      | edit t e =>
          simp [Event.next, History.written, History.extend, History.latest, hk.1, hk.2]
      | confirm t g => simp [Event.next, History.written, History.updateStatus, hk.1, hk.2]

theorem Event.written_foldl_next (evs : List Event) {h k : Option History}
    (hw : h.map History.written = k.map History.written) :
    (evs.foldl (fun h ev => ev.next h) h).map History.written =
      (evs.foldl (fun h ev => ev.next h) k).map History.written := by
  induction evs generalizing h k with
  | nil => exact hw
  | cons ev evs ih => exact ih (ev.written_next hw)

theorem State.getElem?_after (s : State) (ev : Event) (t : TreeId) :
    (s.after ev).trees[t]? = if ev.tree = t then ev.next s.trees[t]? else s.trees[t]? := by
  split
  · next heq =>
      subst heq
      cases ev with
      | start t => simp [after, Event.tree, Event.next]
      | edit t e => cases ht : s.trees[t]? <;> simp [after, Event.tree, Event.next, ht]
      | confirm t g => cases ht : s.trees[t]? <;> simp [after, Event.tree, Event.next, ht]
  · next hne =>
      cases ev with
      | start t' => exact (getElem?_setTree ..).trans (if_neg hne)
      | edit t' e =>
          rw [after]
          split
          · rfl
          · exact (getElem?_setTree ..).trans (if_neg hne)
      | confirm t' g =>
          rw [after]
          split
          · rfl
          · exact (getElem?_setTree ..).trans (if_neg hne)

theorem State.nodes_after {s : State} {ev : Event} (ha : s.Admits ev) :
    (s.after ev).nodes = s.nodes.addAll ev.made := by
  cases ev with
  | start t => rfl
  | edit t e =>
      obtain ⟨h, ht, -⟩ := ha
      rw [after, ht]
      rfl
  | confirm t g =>
      obtain ⟨h, ht, -⟩ := ha
      rw [after, ht]
      rfl

/-! ## Walks -/

namespace NodeMap

variable {a b : NodeMap} {t : Tree}

/-- A tree that is stored in two maps is walked through in the same way. -/
theorem walkWithin_hash_congr (ha : t.MadeOf a.stored) (hb : t.MadeOf b.stored) (first : Side)
    (skip : Hash → Bool) {d d' : Nat} (hd : t.height ≤ d) (hd' : t.height ≤ d') :
    a.walkWithin first skip d t.hash = b.walkWithin first skip d' t.hash := by
  induction t generalizing d d' with
  | leaf key value =>
      obtain ⟨d, rfl⟩ := Nat.exists_eq_add_of_le' hd
      obtain ⟨d', rfl⟩ := Nat.exists_eq_add_of_le' hd'
      simp only [Tree.height, walkWithin, getElem?_top ha, getElem?_top hb, Tree.node]
  | branch l r ihl ihr =>
      obtain ⟨d, rfl⟩ := Nat.exists_eq_add_of_le' hd
      obtain ⟨d', rfl⟩ := Nat.exists_eq_add_of_le' hd'
      have hchild (side : Side) :
          a.walkWithin first skip (d + max l.height r.height)
              ((Internal.ofPair l.hash r.hash).child side) =
            b.walkWithin first skip (d' + max l.height r.height)
              ((Internal.ofPair l.hash r.hash).child side) := by
        cases side with
        | left => exact ihl ha.left hb.left (by omega) (by omega)
        | right => exact ihr ha.right hb.right (by omega) (by omega)
      simp only [Tree.height, ← Nat.add_assoc, walkWithin, getElem?_top ha, getElem?_top hb,
        Tree.node, hchild]

theorem walk_hash_congr (ha : t.MadeOf a.stored) (hb : t.MadeOf b.stored) (first : Side)
    (skip : Hash → Bool) : a.walk first skip t.hash = b.walk first skip t.hash :=
  walkWithin_hash_congr ha hb first skip (Nat.le_succ_of_le (height_le_size ha))
    (Nat.le_succ_of_le (height_le_size hb))

/-- Under a root, if there is one, both maps are walked through in the same way. -/
def SameUnder (a b : NodeMap) (root : Option Hash) : Prop :=
  ∀ top, root = some top → ∀ (first : Side) (skip : Hash → Bool),
    a.walk first skip top = b.walk first skip top

variable {root : Option Hash}

theorem SameUnder.hashesUnder_eq (h : a.SameUnder b root) :
    a.hashesUnder root = b.hashesUnder root := by
  cases root with
  | none => rfl
  | some top => simp only [hashesUnder, h top rfl]

theorem SameUnder.terminalsOutside_eq (h : a.SameUnder b root) (shared : Std.ExtTreeSet Hash) :
    a.terminalsOutside shared root = b.terminalsOutside shared root := by
  cases root with
  | none => rfl
  | some top => simp only [terminalsOutside, h top rfl]

end NodeMap

namespace Store

variable {a a' b b' s s' : Store} {t : TreeId} {U : Set Node} {evs : List Event} {α β : Type}

/-- A tree goes through the events that are its own. -/
theorem Entered.getElem?_trees (h : Entered s evs s') (t : TreeId) :
    s'.state.trees[t]? =
      (evs.filter (·.tree = t)).foldl (fun h ev => ev.next h) s.state.trees[t]? := by
  induction h with
  | nil s => rfl
  | @cons s s' s'' ev evs ha hev h ih =>
      rw [ih, state_of_enter hev, State.getElem?_after]
      by_cases heq : ev.tree = t
      · rw [if_pos heq, List.filter_cons_of_pos (by simpa using heq), List.foldl_cons]
      · rw [if_neg heq, List.filter_cons_of_neg (by simpa using heq)]

/-- What events of a tree make of its history depends on this history alone. -/
theorem Entered.getElem?_own (h : Entered s evs s') (hevs : ∀ ev ∈ evs, ev.tree = t) :
    s'.state.trees[t]? = evs.foldl (fun h ev => ev.next h) s.state.trees[t]? := by
  rw [h.getElem?_trees, List.filter_eq_self.mpr fun ev hev => by simpa using hevs ev hev]

/-- Events of one tree leave all others as they are. -/
theorem Entered.getElem?_other (h : Entered s evs s') {t' : TreeId}
    (hevs : ∀ ev ∈ evs, ev.tree = t) (hne : t ≠ t') :
    s'.state.trees[t']? = s.state.trees[t']? := by
  rw [h.getElem?_trees, List.filter_eq_nil_iff.mpr fun ev hev => by simpa [hevs ev hev] using hne]
  rfl

theorem Entered.nodes (h : Entered s evs s') :
    s'.state.nodes = s.state.nodes.addAll (evs.flatMap Event.made) := by
  induction h with
  | nil s => rfl
  | cons ha hev h ih =>
      rw [ih, state_of_enter hev, State.nodes_after ha, List.flatMap_cons, NodeMap.addAll_append]

/-- No event gives a store a journal. -/
theorem Entered.journal (h : Entered s evs s') (hf : ∃ f, s'.journal = some f) :
    ∃ f, s.journal = some f := by
  induction h with
  | nil s => exact hf
  | cons ha hev h ih => exact journal_of_enter hev (ih hf)

/-! ## Stores with a tree in common -/

/-- Two intact stores have the same roots and operations of a tree. -/
structure SameAt (U : Set Node) (t : TreeId) (a b : Store) : Prop where
  left : a.Intact U
  right : b.Intact U
  written : a.state.trees[t]?.map History.written = b.state.trees[t]?.map History.written

theorem SameAt.entered (hab : a.SameAt U t b) (hU : Set.InjOn Node.hash U)
    (hmade : ∀ ev ∈ evs, ∀ n ∈ ev.made, n ∈ U) (ha : Entered a evs a') (hb : Entered b evs b') :
    a'.SameAt U t b' where
  left := hab.left.entered hU hmade ha
  right := hab.right.entered hU hmade hb
  written := by
    rw [ha.getElem?_trees, hb.getElem?_trees]
    exact Event.written_foldl_next _ hab.written

/-- What both stores have of the tree: nothing, or the same version and the same log. -/
inductive SameTree (a b : Store) (t : TreeId) : Prop
  | unknown (left : a.state.trees[t]? = none) (right : b.state.trees[t]? = none)
  | serves {h k : History} {v : Version} (left : a.Serves t h v) (right : b.Serves t k v)
      (roots : k.roots = h.roots) (operations : k.operations = h.operations)

theorem SameAt.sameTree (hab : a.SameAt U t b) (hU : Set.InjOn Node.hash U) : SameTree a b t := by
  have hwritten := hab.written
  cases ht : a.state.trees[t]? with
  | none =>
      rw [ht] at hwritten
      exact .unknown ht (Option.map_eq_none_iff.mp hwritten.symm)
  | some h =>
      rw [ht] at hwritten
      obtain ⟨k, hk, hsame⟩ := Option.map_eq_some_iff.mp hwritten.symm
      simp only [History.written, Prod.mk.injEq] at hsame
      obtain ⟨-, v, -, hv⟩ := hab.left.exists_serves ht
      obtain ⟨-, w, -, hw⟩ := hab.right.exists_serves hk
      -- the last root is the same, and so is the version with its hash
      have heq : w = v := by
        refine Version.eq_of_hash hU (hw.shows.stored.mono hab.right.within.stored_subset)
          (hv.shows.stored.mono hab.left.within.stored_subset) ?_
        rw [← hv.shows.root, ← hw.shows.root, History.latest, History.latest]
        simp only [hsame.1]
      exact .serves hv (heq ▸ hw) hsame.1 hsame.2

theorem Intact.servedTree_unknown (hs : s.Intact U) (ht : s.state.trees[t]? = none) :
    s.servedTree t = .error (.notFound (.tree t)) := by
  simp [servedTree, requireInService, hs.isOutOfService t, State.tree, ht, bind, Except.bind]

/-! ## Questions -/

/-- Whatever is worked out from the roots and the operations of the tree is the same. -/
theorem SameAt.servedTree_bind (hab : a.SameAt U t b) (hU : Set.InjOn Node.hash U)
    {f : History → Except Error α}
    (hf : ∀ h k : History, k.roots = h.roots → k.operations = h.operations → f k = f h) :
    (a.servedTree t).bind f = (b.servedTree t).bind f := by
  cases hab.sameTree hU with
  | unknown left right =>
      rw [hab.left.servedTree_unknown left, hab.right.servedTree_unknown right]
  | serves left right roots operations =>
      rw [left.servedTree, right.servedTree]
      exact (hf _ _ roots operations).symm

theorem SameAt.isOutOfService (hab : a.SameAt U t b) : a.isOutOfService t = b.isOutOfService t := by
  rw [hab.left.isOutOfService, hab.right.isOutOfService]

theorem SameAt.hasTree_eq (hab : a.SameAt U t b) : a.hasTree t = b.hasTree t := by
  have := congrArg Option.isSome hab.written
  simpa [hasTree] using this

theorem SameAt.latestRoot_eq (hab : a.SameAt U t b) (hU : Set.InjOn Node.hash U) :
    a.latestRoot t = b.latestRoot t :=
  hab.servedTree_bind hU fun h k hr _ => by simp only [History.latest, hr]

theorem SameAt.root_eq (hab : a.SameAt U t b) (hU : Set.InjOn Node.hash U) (g : Nat) :
    a.root t g = b.root t g :=
  hab.servedTree_bind hU fun h k hr _ => by simp only [hr]

theorem SameAt.lastRootWith_eq (hab : a.SameAt U t b) (hU : Set.InjOn Node.hash U)
    (top : Option Hash) : a.lastRootWith t top = b.lastRootWith t top :=
  hab.servedTree_bind hU fun h k hr _ => by simp only [hr]

theorem SameAt.requireRoot_eq (hab : a.SameAt U t b) (hU : Set.InjOn Node.hash U) (top : Hash) :
    a.requireRoot t top = b.requireRoot t top := by
  rw [requireRoot, requireRoot, hab.lastRootWith_eq hU]

theorem SameAt.terminal_eq (hab : a.SameAt U t b) (hU : Set.InjOn Node.hash U) (key : Bytes) :
    a.terminal t key = b.terminal t key := by
  cases hab.sameTree hU with
  | unknown left right =>
      rw [terminal, terminal, hab.left.servedTree_unknown left,
        hab.right.servedTree_unknown right]
      rfl
  | serves left right => rw [Store.terminal_eq left, Store.terminal_eq right]

/-- Both stores have the same ancestors of a node, however they find them. -/
theorem SameAt.ancestors_eq (hab : a.SameAt U t b) (hU : Set.InjOn Node.hash U) (hash : Hash) :
    a.ancestors t hash = b.ancestors t hash := by
  cases hab.sameTree hU with
  | unknown left right =>
      rw [ancestors, ancestors, hab.left.servedTree_unknown left,
        hab.right.servedTree_unknown right]
      rfl
  | serves left right => rw [Store.ancestors_eq left, Store.ancestors_eq right]

/-- Both stores have the same nodes under a root of the tree. -/
theorem SameAt.sameUnder (hab : a.SameAt U t b) (hU : Set.InjOn Node.hash U) {h : History}
    (ht : a.state.trees[t]? = some h) {r : Root} (hr : r ∈ h.roots) :
    a.state.nodes.SameUnder b.state.nodes r.node := by
  have hwritten := hab.written
  rw [ht] at hwritten
  obtain ⟨k, hk, hsame⟩ := Option.map_eq_some_iff.mp hwritten.symm
  simp only [History.written, Prod.mk.injEq] at hsame
  obtain ⟨es, v, hm⟩ := hab.left.sound.trees t h ht
  obtain ⟨es', w, hm'⟩ := hab.right.sound.trees t k hk
  obtain ⟨g, hg⟩ := List.mem_iff_getElem?.mp hr
  obtain ⟨u, hu, hnode⟩ := hm.node_root hg
  obtain ⟨u', hu', hnode'⟩ := hm'.node_root (hsame.1 ▸ hg)
  have hstored := hm.stored_versions (List.mem_of_getElem? hu)
  have hstored' := hm'.stored_versions (List.mem_of_getElem? hu')
  -- there is one version with the hash at the root
  obtain rfl : u' = u := Version.eq_of_hash hU (hstored'.mono hab.right.within.stored_subset)
    (hstored.mono hab.left.within.stored_subset) (hnode'.symm.trans hnode)
  intro top htop first skip
  rw [htop] at hnode
  obtain ⟨c, rfl, rfl⟩ := Option.map_eq_some_iff.mp hnode.symm
  exact NodeMap.walk_hash_congr hstored hstored' first skip

theorem SameAt.sameUnder_latestRoot (hab : a.SameAt U t b) (hU : Set.InjOn Node.hash U) {r : Root}
    (hr : a.latestRoot t = .ok r) : a.state.nodes.SameUnder b.state.nodes r.node := by
  obtain ⟨h, ht, hlatest⟩ := bind_eq_ok.mp hr
  obtain rfl : h.latest = r := Except.ok.inj hlatest
  exact hab.sameUnder hU (tree_of_servedTree ht) (List.getLast_mem h.roots_ne_nil)

theorem SameAt.sameUnder_requireRoot (hab : a.SameAt U t b) (hU : Set.InjOn Node.hash U)
    {top : Hash} (htop : a.requireRoot t top = .ok ()) :
    a.state.nodes.SameUnder b.state.nodes (some top) := by
  obtain ⟨found, hfound, hsome⟩ := bind_eq_ok.mp htop
  obtain ⟨h, ht, hfind⟩ := bind_eq_ok.mp hfound
  cases found with
  | none => cases hsome
  | some r =>
      have hfind : h.roots.reverse.find? (·.node == some top) = some r := Except.ok.inj hfind
      have hr : r ∈ h.roots := List.mem_reverse.mp (List.mem_of_find?_eq_some hfind)
      have hnode : r.node = some top := by simpa using List.find?_some hfind
      exact hnode ▸ hab.sameUnder hU (tree_of_servedTree ht) hr

theorem SameAt.keysValues_eq (hab : a.SameAt U t b) (hU : Set.InjOn Node.hash U)
    (root : Option Hash) : a.keysValues t root = b.keysValues t root := by
  cases root with
  | none =>
      rw [keysValues, keysValues, ← hab.latestRoot_eq hU]
      refine bind_congr_ok fun r hr => ?_
      have hsame := hab.sameUnder_latestRoot hU hr
      simp only [pure_bind]
      cases hnode : r.node with
      | none => rfl
      | some top => simp only [preorder, NodeMap.preorder, hsame top hnode]
  | some top =>
      rw [keysValues, keysValues, ← hab.requireRoot_eq hU]
      refine bind_congr_ok fun _ hrequire => ?_
      have hsame := hab.sameUnder_requireRoot hU hrequire
      simp only [pure_bind, preorder, NodeMap.preorder, hsame top rfl]

/-- A difference is worked out once both roots have been found. -/
theorem diff_eq (s : Store) (t : TreeId) (first last : Option Hash) :
    s.diff t first last = (do
      s.requireInService t
      first.forM (s.requireRoot t)
      last.forM (s.requireRoot t)
      if first = last then return []
      let firstHashes ← s.state.nodes.hashesUnder first
      let lastHashes ← s.state.nodes.hashesUnder last
      let old ← s.state.nodes.terminalsOutside lastHashes first
      let new ← s.state.nodes.terminalsOutside firstHashes last
      return changesBetween old new) := by
  cases first <;> cases last <;> rfl

theorem SameAt.diff_eq (hab : a.SameAt U t b) (hU : Set.InjOn Node.hash U)
    (first last : Option Hash) : a.diff t first last = b.diff t first last := by
  have hrequire : a.requireRoot t = b.requireRoot t := funext (hab.requireRoot_eq hU)
  have hsame {root : Option Hash} (hroot : root.forM (a.requireRoot t) = .ok ()) :
      a.state.nodes.SameUnder b.state.nodes root := by
    cases root with
    | none => exact fun top htop => absurd htop (by simp)
    | some top => exact hab.sameUnder_requireRoot hU hroot
  rw [Store.diff_eq, Store.diff_eq, requireInService, requireInService, hab.isOutOfService,
    ← hrequire]
  refine bind_congr_ok fun _ _ => bind_congr_ok fun _ hfirst => bind_congr_ok fun _ hlast => ?_
  simp only [(hsame hfirst).hashesUnder_eq, (hsame hlast).hashesUnder_eq,
    (hsame hfirst).terminalsOutside_eq, (hsame hlast).terminalsOutside_eq]

/-- Both stores give the same answers about the tree. -/
theorem SameAt.answer_eq (hab : a.SameAt U t b) (hU : Set.InjOn Node.hash U) {q : Question}
    (hq : q.tree? = some t) : q.answer a = q.answer b := by
  cases q with
  | treeIds | numNodes | node h | preorder h => cases hq
  | hasTree t' =>
      cases hq
      simp only [Question.answer, hab.hasTree_eq]
  | isOutOfService t' =>
      cases hq
      simp only [Question.answer, hab.isOutOfService]
  | latestRoot t' =>
      cases hq
      simp only [Question.answer, hab.latestRoot_eq hU]
  | latestGeneration t' =>
      cases hq
      simp only [Question.answer, latestGeneration, hab.latestRoot_eq hU]
  | root t' g =>
      cases hq
      simp only [Question.answer, hab.root_eq hU]
  | rootsBetween t' first last =>
      cases hq
      exact congrArg (Except.map Answer.roots) <| hab.servedTree_bind hU fun h k hr _ => by
        simp only [hr]
  | lastRootWith t' top =>
      cases hq
      simp only [Question.answer, hab.lastRootWith_eq hU]
  | terminal t' key =>
      cases hq
      simp only [Question.answer, hab.terminal_eq hU]
  | ancestors t' h =>
      cases hq
      simp only [Question.answer, hab.ancestors_eq hU]
  | keysValues t' top =>
      cases hq
      simp only [Question.answer, hab.keysValues_eq hU]
  | operations t' first last =>
      cases hq
      exact congrArg (Except.map Answer.operations) <| hab.servedTree_bind hU fun h k hr ho => by
        simp only [History.latest, hr, ho]
  | diff t' first last =>
      cases hq
      simp only [Question.answer, hab.diff_eq hU]

/-! ## Calls -/

/-- The journal of a store refuses a frame of an action. -/
def Refuses (s : Store) (x : Action α) : Prop :=
  isRefusal (x s).1 = true ∧ ∃ f, s.journal = some f

/-- Two stores take an action with the same result and by the same events of a tree, or a journal
refuses a frame. -/
inductive Agree (U : Set Node) (t : TreeId) (a b : Store) (x : Action α) : Prop
  | refusedLeft (h : a.Refuses x)
  | refusedRight (h : b.Refuses x)
  | alike (evs : List Event) (result : (x a).1 = (x b).1) (tree : ∀ ev ∈ evs, ev.tree = t)
      (made : ∀ ev ∈ evs, ∀ n ∈ ev.made, n ∈ U) (left : Entered a evs (x a).2)
      (right : Entered b evs (x b).2)

theorem Agree.of_eq {x y : Action α} (ha : x a = y a) (hb : x b = y b) (hy : Agree U t a b y) :
    Agree U t a b x := by
  cases hy with
  | refusedLeft h => exact .refusedLeft ⟨ha ▸ h.1, h.2⟩
  | refusedRight h => exact .refusedRight ⟨hb ▸ h.1, h.2⟩
  | alike evs result tree made left right =>
      exact .alike evs (ha ▸ hb ▸ result) tree made (ha ▸ left) (hb ▸ right)

theorem agree_stay (r : Except Error α) : Agree U t a b fun s => (r, s) :=
  .alike [] rfl (by simp) (by simp) (.nil a) (.nil b)

/-- Of an action and what follows, both agree on each. -/
theorem Agree.andThen (hab : a.SameAt U t b) (hU : Set.InjOn Node.hash U) {x : Action α}
    {next : α → Action β} (hx : Agree U t a b x)
    (hnext : ∀ r, (x a).1 = .ok r → (x a).2.SameAt U t (x b).2 →
      Agree U t (x a).2 (x b).2 (next r)) : Agree U t a b (x.andThen next) := by
  have hrefuses {s : Store} (h : s.Refuses x) : s.Refuses (x.andThen next) := by
    obtain ⟨hrefusal, hjournal⟩ := h
    refine ⟨?_, hjournal⟩
    rw [Action.andThen]
    rcases hs : x s with ⟨err | r, s'⟩
    · rwa [hs] at hrefusal
    · rw [hs] at hrefusal
      cases hrefusal
  cases hx with
  | refusedLeft h => exact .refusedLeft (hrefuses h)
  | refusedRight h => exact .refusedRight (hrefuses h)
  | alike evs result tree made left right =>
      have hsame := hab.entered hU made left right
      rcases ha : x a with ⟨err | r, a'⟩ <;> rcases hb : x b with ⟨err' | r', b'⟩ <;>
        simp only [ha, hb] at result left right hsame hnext <;> cases result
      · exact .alike evs (by simp only [Action.andThen, ha, hb]) tree made
          (by simpa only [Action.andThen, ha] using left)
          (by simpa only [Action.andThen, hb] using right)
      · have hxa : x.andThen next a = next r a' := by simp only [Action.andThen, ha]
        have hxb : x.andThen next b = next r b' := by simp only [Action.andThen, hb]
        cases hnext r rfl hsame with
        | refusedLeft h => exact .refusedLeft ⟨hxa ▸ h.1, left.journal h.2⟩
        | refusedRight h => exact .refusedRight ⟨hxb ▸ h.1, right.journal h.2⟩
        | alike evs' result' tree' made' left' right' =>
            refine .alike (evs ++ evs') (hxa ▸ hxb ▸ result') ?_ ?_ (hxa ▸ left.append left')
              (hxb ▸ right.append right')
            · exact fun ev hev => (List.mem_append.mp hev).elim (tree ev) (tree' ev)
            · exact fun ev hev => (List.mem_append.mp hev).elim (made ev) (made' ev)

/-- Agreement does not depend on the form of the result. -/
theorem Agree.andThen_done (hab : a.SameAt U t b) (hU : Set.InjOn Node.hash U) {x : Action α}
    (hx : Agree U t a b x) (f : α → β) : Agree U t a b (x.andThen fun r => Action.done (f r)) :=
  hx.andThen hab hU fun r _ _ => agree_stay (.ok (f r))

/-- An event that both admit happens in both, unless a journal refuses it. -/
theorem agree_enter {ev : Event} (htree : ev.tree = t) (hmade : ∀ n ∈ ev.made, n ∈ U)
    (ha : a.state.Admits ev) (hb : b.state.Admits ev) : Agree U t a b (enter ev) := by
  rcases enter_cases ev a with ⟨err, heq⟩ | ⟨a', heq⟩
  · exact .refusedLeft (by rw [Refuses, heq]; exact refusesFrame_of_enter heq)
  · rcases enter_cases ev b with ⟨err, heq'⟩ | ⟨b', heq'⟩
    · exact .refusedRight (by rw [Refuses, heq']; exact refusesFrame_of_enter heq')
    · refine .alike [ev] (by rw [heq, heq']) (by simpa using htree) (by simpa using hmade) ?_ ?_
      · rw [heq]
        exact .single ha heq
      · rw [heq']
        exact .single hb heq'

/-- The version that both show decides about an operation. -/
theorem SameAt.agree_carryOut (hab : a.SameAt U t b) (hU : Set.InjOn Node.hash U) {o : Operation}
    (hn : ∀ n ∈ a.state.operationNodes t o, n ∈ U) (expected : Option (Option Hash)) :
    Agree U t a b (carryOut t o expected) := by
  cases hab.sameTree hU with
  | unknown left right =>
      exact .of_eq (carryOut_unknown (hab.left.isOutOfService t) left o)
        (carryOut_unknown (hab.right.isOutOfService t) right o) (agree_stay _)
  | @serves h k v left right roots =>
      cases he : v.editFor t o with
      | error err =>
          have hstays {s : Store} {h : History} (hv : s.Serves t h v) :
              carryOut t o expected s = (.error err, s) := by
            simp only [carryOut_eq hv, he]
          exact .of_eq (hstays left) (hstays right) (agree_stay _)
      | ok e =>
          obtain ⟨rfl, hf⟩ := Version.of_editFor he
          have henter : Agree U t a b (enter (.edit t e)) := by
            refine agree_enter rfl ?_ (left.admits hf) (right.admits hf)
            rwa [State.operationNodes_eq left.tree left.shows he] at hn
          have htoward {s : Store} {h : History} (hv : s.Serves t h e.source) :
              carryOut t o expected s = enterToward t h e expected s := by
            simp only [carryOut_eq hv, he]
          have hlatest : k.latest = h.latest := by simp only [History.latest, roots]
          refine .of_eq (y := enterToward t h e expected) (htoward left) ?_ ?_
          · simp only [htoward right, enterToward, hlatest]
          · cases expected with
            | none => exact henter
            | some root =>
                simp only [enterToward]
                split
                · exact henter
                · exact agree_stay _

theorem SameAt.agree_addTree (hab : a.SameAt U t b) : Agree U t a b (addTree t) := by
  have hb := addTree_eq t b
  rw [← hab.hasTree_eq] at hb
  by_cases hhas : a.hasTree t = true
  · exact .of_eq ((addTree_eq t a).trans (if_pos hhas)) (hb.trans (if_pos hhas)) (agree_stay _)
  · refine .of_eq ((addTree_eq t a).trans (if_neg hhas)) (hb.trans (if_neg hhas))
      (agree_enter rfl (by simp [Event.made]) (admits_start hhas) (admits_start ?_))
    rwa [← hab.hasTree_eq]

theorem SameAt.agree_confirm (hab : a.SameAt U t b) (hU : Set.InjOn Node.hash U) (g : Nat) :
    Agree U t a b (confirm t g) := by
  have ha := confirm_eq t g a
  have hb := confirm_eq t g b
  rw [← hab.root_eq hU] at hb
  cases hr : a.root t g with
  | error err =>
      simp only [hr] at ha hb
      exact .of_eq ha hb (agree_stay _)
  | ok r =>
      simp only [hr] at ha hb
      by_cases hstatus : r.status = .committed
      · exact .of_eq (ha.trans (if_pos hstatus)) (hb.trans (if_pos hstatus)) (agree_stay _)
      · exact .of_eq (ha.trans (if_neg hstatus)) (hb.trans (if_neg hstatus))
          (agree_enter rfl (by simp [Event.made]) (admits_confirm hr)
            (admits_confirm (hab.root_eq hU g ▸ hr)))

/-- Operations are repeated as far, and with the same outcome, in both. -/
theorem SameAt.agree_replayFrom (hab : a.SameAt U t b) (hU : Set.InjOn Node.hash U)
    {os : List Operation} (hn : ∀ n ∈ replayNodes t os a, n ∈ U) (root : Option Hash) :
    Agree U t a b (replayFrom t root os) := by
  induction os generalizing a b root with
  | nil => exact agree_stay (.ok root)
  | cons o os ih =>
      simp only [replayNodes, List.mem_append] at hn
      have hone : Agree U t a b (replayOne t o) := by
        rw [replayOne_eq]
        exact hab.agree_carryOut hU (fun n h => hn n (.inl h)) _
      refine hone.andThen hab hU fun r hr hsame => ih hsame (fun n h => hn n (.inr ?_)) o.root
      obtain ⟨result, a', hreplay⟩ : ∃ result a', replayOne t o a = (result, a') := ⟨_, _, rfl⟩
      rw [hreplay] at hr h ⊢
      obtain rfl : result = .ok r := hr
      exact h

/-- Both stores take a call on the tree in the same way. -/
theorem SameAt.agree_perform (hab : a.SameAt U t b) (hU : Set.InjOn Node.hash U) {c : Call}
    (hc : c.tree? = some t) (hn : ∀ n ∈ c.nodes a, n ∈ U) : Agree U t a b c.perform := by
  cases c with
  | audit | ask q => cases hc
  | addTree t' =>
      cases hc
      exact hab.agree_addTree.andThen_done hab hU _
  | insert t' key value reference side =>
      cases hc
      have hcarry := hab.agree_carryOut hU
        (o := .insertion ⟨default, key, value, reference, side, .pending⟩) hn none
      simp only [Call.perform, insert_eq]
      exact (hcarry.andThen_done hab hU _).andThen_done hab hU _
  | delete t' key =>
      cases hc
      have hcarry := hab.agree_carryOut hU (o := .deletion ⟨none, key, .pending⟩) hn none
      exact hcarry.andThen_done hab hU _
  | confirm t' g =>
      cases hc
      exact (hab.agree_confirm hU g).andThen_done hab hU _
  | replay t' os =>
      cases hc
      refine Agree.andThen_done (x := replay t os) hab hU ?_ _
      have hroot : Agree U t a b (Action.read (·.latestRoot t)) :=
        .of_eq (y := fun s => (a.latestRoot t, s)) rfl
          (by rw [Action.read, hab.latestRoot_eq hU]) (agree_stay _)
      exact hroot.andThen hab hU fun r _ _ => hab.agree_replayFrom hU hn r.node

end Store

end MerkleStore
