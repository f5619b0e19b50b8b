import MerkleStore.Proofs.Sound
import MerkleStore.State.Reindex

/-!
# States but for their indexes

What is written down about a state does not include its indexes. Two states with the
same nodes, roots and operations (`State.Alike`) take the same records in the same way
(`State.Alike.applyAll`), and a state like a sound one becomes sound when its indexes
are made again (`State.Sound.exists_reindex`).
-/

namespace MerkleStore

/-- What is written down about a history. -/
def History.written (h : History) : List Root × List Operation := (h.roots, h.operations)

namespace State

/-- Two states differ in their indexes at most. -/
structure Alike (a b : State) : Prop where
  nodes : a.nodes = b.nodes
  trees : ∀ t : TreeId, a.trees[t]?.map History.written = b.trees[t]?.map History.written

variable {a b c a' : State} {t : TreeId} {h : History} {r : Record} {rs : List Record}

theorem Alike.refl (a : State) : a.Alike a := ⟨rfl, fun _ => rfl⟩

theorem Alike.symm (h : a.Alike b) : b.Alike a := ⟨h.nodes.symm, fun t => (h.trees t).symm⟩

theorem Alike.trans (h : a.Alike b) (h' : b.Alike c) : a.Alike c :=
  ⟨h.nodes.trans h'.nodes, fun t => (h.trees t).trans (h'.trees t)⟩

theorem Alike.getElem?_eq_none (hab : a.Alike b) (ht : a.trees[t]? = none) :
    b.trees[t]? = none := by
  have := hab.trees t
  simpa [ht, eq_comm] using this

theorem Alike.exists_getElem? (hab : a.Alike b) (ht : a.trees[t]? = some h) :
    ∃ h', b.trees[t]? = some h' ∧ h'.roots = h.roots ∧ h'.operations = h.operations := by
  have := hab.trees t
  rw [ht, Option.map_some, eq_comm, Option.map_eq_some_iff] at this
  obtain ⟨h', ht', heq⟩ := this
  simp only [History.written, Prod.mk.injEq] at heq
  exact ⟨h', ht', heq⟩

theorem Alike.setTree {h' : History} (hab : a.Alike b) (hw : h.written = h'.written)
    (t : TreeId) : (a.setTree t h).Alike (b.setTree t h') where
  nodes := hab.nodes
  trees := by
    intro t'
    simp only [getElem?_setTree]
    split
    · simp [hw]
    · exact hab.trees t'

/-- A change of an index is not written down. -/
theorem alike_updateIndex (s : State) (t : TreeId) (u : IndexChange) :
    (s.updateIndex t u).Alike s := by
  rw [updateIndex]
  cases ht : s.trees[t]? with
  | none => exact .refl s
  | some h =>
      refine ⟨rfl, fun t' => ?_⟩
      simp only [getElem?_setTree]
      split
      · next heq =>
          subst heq
          simp [ht, History.written]
      · rfl

theorem alike_foldl_updateIndex (s : State) (us : List (TreeId × IndexChange)) :
    (us.foldl (fun s u => s.updateIndex u.1 u.2) s).Alike s := by
  induction us generalizing s with
  | nil => exact .refl s
  | cons u us ih => exact (ih (s.updateIndex u.1 u.2)).trans (alike_updateIndex s u.1 u.2)

/-- Alike states take the same record and stay alike. -/
theorem Alike.apply (hab : a.Alike b) (h : a.apply r = .ok a') :
    ∃ b', b.apply r = .ok b' ∧ a'.Alike b' := by
  cases apply_eq_ok.mp h with
  | node n => exact ⟨_, rfl, by simp [addNode, hab.nodes], hab.trees⟩
  | @start r ht hg =>
      have hnone := hab.getElem?_eq_none ht
      exact ⟨_, apply_eq_ok.mpr (.start hnone hg), hab.setTree rfl r.tree⟩
  | root ht hg =>
      obtain ⟨k, ht', hr, ho⟩ := hab.exists_getElem? ht
      refine ⟨_, apply_eq_ok.mpr (.root ht' (hr ▸ hg)), hab.setTree ?_ _⟩
      simp [History.written, History.addRoot, hr, ho]
  | operation ht hg =>
      obtain ⟨k, ht', hr, ho⟩ := hab.exists_getElem? ht
      refine ⟨_, apply_eq_ok.mpr (.operation ht' (ho ▸ hg)), hab.setTree ?_ _⟩
      simp [History.written, History.addOperation, hr, ho]
  | status ht hg =>
      obtain ⟨k, ht', hr, ho⟩ := hab.exists_getElem? ht
      refine ⟨_, apply_eq_ok.mpr (.status ht' (hr ▸ hg)), hab.setTree ?_ _⟩
      simp [History.written, History.updateStatus, hr, ho]

theorem Alike.applyAll (hab : a.Alike b) (h : a.applyAll rs = .ok a') :
    ∃ b', b.applyAll rs = .ok b' ∧ a'.Alike b' := by
  induction rs generalizing a b with
  | nil =>
      cases h
      exact ⟨b, rfl, hab⟩
  | cons r rs ih =>
      obtain ⟨x, hr, hrest⟩ := applyAll_cons_eq_ok.mp h
      obtain ⟨y, hy, hxy⟩ := hab.apply hr
      obtain ⟨b', hb, halike⟩ := ih hxy hrest
      exact ⟨b', applyAll_cons_eq_ok.mpr ⟨y, hy, hb⟩, halike⟩

/-- Alike states stay alike when the same event happens to both. -/
theorem Alike.after {ev : Event} (hab : a.Alike b) : (a.after ev).Alike (b.after ev) := by
  cases ev with
  | start t => exact hab.setTree rfl t
  | edit t e =>
      simp only [State.after]
      cases ht : a.trees[t]? with
      | none =>
          simp only [hab.getElem?_eq_none ht]
          exact hab
      | some h =>
          obtain ⟨h', ht', hr, ho⟩ := hab.exists_getElem? ht
          have hnodes : ({ a with nodes := a.nodes.addAll e.made } : State).Alike
              { b with nodes := b.nodes.addAll e.made } := ⟨by simp [hab.nodes], hab.trees⟩
          simp only [ht']
          exact hnodes.setTree (by simp [History.written, History.extend, History.latest, hr, ho]) t
  | confirm t g =>
      simp only [State.after]
      cases ht : a.trees[t]? with
      | none =>
          simp only [hab.getElem?_eq_none ht]
          exact hab
      | some h =>
          obtain ⟨h', ht', hr, ho⟩ := hab.exists_getElem? ht
          simp only [ht']
          exact hab.setTree (by simp [History.written, History.updateStatus, hr, ho]) t

end State

/-! ## Indexes made again -/

/-- The index made out of the nodes of a version. -/
def Version.index : Version → Index
  | none => .empty
  | some t => (t.subtrees.map Tree.node).foldl Index.addNode .empty

theorem Version.describes_index {U : Set Node} {v : Version} (hU : Set.InjOn Node.hash U)
    (hm : v.MadeOf U) (hd : v.Distinct) : v.index.Describes v := by
  cases v with
  | none => exact .empty
  | some t => exact Index.describes_foldl_addNode hU hm hd

namespace State

theorem indexUnder_hash {nodes : NodeMap} {v : Version} (hm : v.MadeOf nodes.stored) :
    indexUnder nodes v.hash = .ok v.index := by
  cases v with
  | none => rfl
  | some t =>
      simp only [indexUnder, Version.hash, Option.map_some, NodeMap.nodes_preorder_hash hm, bind,
        Except.bind, pure, Except.pure, Version.index]

theorem mapM_eq_ok {α β : Type} {f : α → Except Error β} {g : α → β} {xs : List α}
    (h : ∀ x ∈ xs, f x = .ok (g x)) : xs.mapM f = .ok (xs.map g) := by
  induction xs with
  | nil => rfl
  | cons x xs ih =>
      rw [List.mapM_cons, h x List.mem_cons_self, ih fun y hy => h y (List.mem_cons_of_mem _ hy)]
      rfl

/-- Several steps one after another go through if each of them does. -/
theorem exists_mapM_eq_ok {α β : Type} {f : α → Except Error β} {xs : List α} :
    (∃ ys, xs.mapM f = .ok ys) ↔ ∀ x ∈ xs, ∃ y, f x = .ok y := by
  induction xs with
  | nil => simp [pure, Except.pure]
  | cons x xs ih =>
      rw [List.mapM_cons, List.forall_mem_cons, ← ih]
      cases f x <;> cases xs.mapM f <;> simp [bind, Except.bind, pure, Except.pure]

/-- Of several steps one after another the first that fails is what they fail with. -/
theorem mapM_eq_error {α β : Type} {f : α → Except Error β} {xs : List α} {e : Error} :
    xs.mapM f = .error e ↔ ∃ before x after, xs = before ++ x :: after ∧
      (∀ y ∈ before, ∃ b, f y = .ok b) ∧ f x = .error e := by
  constructor
  · intro h
    induction xs with
    | nil => cases h
    | cons x xs ih =>
        rw [List.mapM_cons] at h
        cases hx : f x with
        | error e' =>
            rw [hx] at h
            cases h
            exact ⟨[], x, xs, rfl, by simp, hx⟩
        | ok b =>
            have hrest : xs.mapM f = .error e := by
              rw [hx] at h
              cases hxs : xs.mapM f <;> rw [hxs] at h <;> cases h
              rfl
            obtain ⟨before, y, after, rfl, hbefore, hy⟩ := ih hrest
            exact ⟨x :: before, y, after, rfl, by simpa [hx] using hbefore, hy⟩
  · rintro ⟨before, x, after, rfl, hbefore, hx⟩
    obtain ⟨ys, hys⟩ := exists_mapM_eq_ok.mpr hbefore
    rw [List.mapM_append, hys, List.mapM_cons, hx]
    rfl

/-- A tree is looked up in a list of histories that were changed one by one. -/
theorem getElem?_ofList_map (trees : Std.ExtTreeMap TreeId History) (f : History → History)
    (t : TreeId) :
    (Std.ExtTreeMap.ofList (trees.toList.map fun (t, h) => (t, f h)) compare)[t]? =
      trees[t]?.map f := by
  have hkeys : (trees.toList.map fun (t, h) => (t, f h)).Pairwise
      fun a b => ¬ compare a.1 b.1 = .eq :=
    List.pairwise_map.mpr (Std.ExtTreeMap.distinct_keys_toList (t := trees))
  cases ht : trees[t]? with
  | some h =>
      refine Std.ExtTreeMap.getElem?_ofList_of_mem Std.ReflCmp.compare_self hkeys ?_
      exact List.mem_map.mpr ⟨(t, h), Std.ExtTreeMap.mem_toList_iff_getElem?_eq_some.mpr ht, rfl⟩
  | none =>
      refine Std.ExtTreeMap.getElem?_ofList_of_contains_eq_false ?_
      rw [List.contains_eq_mem, decide_eq_false_iff_not]
      rintro hmem
      simp only [List.map_map, List.mem_map, Function.comp_apply] at hmem
      obtain ⟨⟨t', h⟩, hmem, rfl⟩ := hmem
      rw [Std.ExtTreeMap.mem_toList_iff_getElem?_eq_some, ht] at hmem
      cases hmem

/-- The history with its index made again. -/
def remade (nodes : NodeMap) (h : History) : History :=
  { h with index := ((indexUnder nodes h.latest.node).toOption).getD .empty }

/-- A history that differs from one made by edits in its index becomes such a history
when the index is made again. -/
theorem made_remade {nodes : NodeMap} {h h' : History} {t : TreeId} {es : List Edit} {v : Version}
    (hm : h'.Made nodes t es v) (hr : h'.roots = h.roots) (ho : h'.operations = h.operations) :
    indexUnder nodes h.latest.node = .ok (remade nodes h).index ∧
      (remade nodes h).Made nodes t es v := by
  have hshows := hm.shows
  have hlatest : h.latest.node = v.hash := by
    simp only [History.latest, ← hr]
    exact hshows.root
  have hunder := indexUnder_hash hshows.stored
  have hindex : (remade nodes h).index = v.index := by
    simp [remade, hlatest, hunder, Except.toOption]
  refine ⟨by rw [hlatest, hunder, hindex], hm.congr hr.symm ho.symm ?_⟩
  rw [hindex]
  exact Version.describes_index nodes.injOn_hash_stored hshows.stored hshows.distinct

/-- The state with the index of every tree made again. -/
def remadeAll (s : State) : State :=
  { s with trees := .ofList (s.trees.toList.map fun (t, h) => (t, remade s.nodes h)) compare }

@[simp] theorem getElem?_remadeAll (s : State) (t : TreeId) :
    s.remadeAll.trees[t]? = s.trees[t]?.map (remade s.nodes) :=
  getElem?_ofList_map s.trees (remade s.nodes) t

theorem alike_remadeAll (s : State) : s.remadeAll.Alike s where
  nodes := rfl
  trees := by
    intro t
    rw [getElem?_remadeAll, Option.map_map]
    rfl

/-- A tree with its index made again. -/
def withIndex (nodes : NodeMap) (x : TreeId × History) : Except Error (TreeId × History) := do
  let index ← indexUnder nodes x.2.latest.node
  return (x.1, { x.2 with index })

theorem reindex_eq_mapM (s : State) :
    s.reindex = (s.trees.toList.mapM (withIndex s.nodes)).bind fun trees =>
      .ok { s with trees := .ofList trees } :=
  rfl

theorem reindex_eq_error {s : State} {e : Error} :
    s.reindex = .error e ↔ s.trees.toList.mapM (withIndex s.nodes) = .error e := by
  rw [reindex_eq_mapM]
  cases s.trees.toList.mapM (withIndex s.nodes) <;> simp [Except.bind]

/-- Indexes are made again if each of them can be. -/
theorem reindex_eq {s : State}
    (hs : ∀ (t : TreeId) (h : History), s.trees[t]? = some h →
      ∃ i, indexUnder s.nodes h.latest.node = .ok i) : s.reindex = .ok s.remadeAll := by
  have heach : ∀ x ∈ s.trees.toList, withIndex s.nodes x = .ok (x.1, remade s.nodes x.2) := by
    rintro ⟨t, h⟩ hx
    obtain ⟨i, hi⟩ := hs t h (Std.ExtTreeMap.mem_toList_iff_getElem?_eq_some.mp hx)
    simp only [withIndex, hi, remade, Except.toOption, Option.getD_some]
    rfl
  rw [reindex_eq_mapM, mapM_eq_ok heach]
  rfl

/-- A state like a sound one becomes sound when its indexes are made again. -/
theorem Sound.exists_reindex {s s₀ : State} (hs : s.Sound) (ha : s₀.Alike s) :
    ∃ s', s₀.reindex = .ok s' ∧ s'.Alike s ∧ s'.Sound := by
  have hmade {t : TreeId} {h : History} (ht : s₀.trees[t]? = some h) :
      ∃ es v, indexUnder s₀.nodes h.latest.node = .ok (remade s₀.nodes h).index ∧
        (remade s₀.nodes h).Made s₀.nodes t es v := by
    obtain ⟨h', ht', hr, ho⟩ := ha.exists_getElem? ht
    obtain ⟨es, v, hm⟩ := hs.trees t h' ht'
    exact ⟨es, v, made_remade (ha.nodes ▸ hm) hr ho⟩
  refine ⟨s₀.remadeAll, reindex_eq fun t h ht => ?_, (alike_remadeAll s₀).trans ha, ?_⟩
  · obtain ⟨-, -, hindex, -⟩ := hmade ht
    exact ⟨_, hindex⟩
  · refine ⟨by simpa [remadeAll, ha.nodes] using hs.nodes, fun t h ht => ?_⟩
    rw [getElem?_remadeAll] at ht
    obtain ⟨h₀, ht₀, rfl⟩ := Option.map_eq_some_iff.mp ht
    obtain ⟨es, v, -, hm⟩ := hmade ht₀
    exact ⟨es, v, hm⟩

end State

end MerkleStore
