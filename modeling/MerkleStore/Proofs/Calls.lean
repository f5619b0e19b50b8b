import MerkleStore.Proofs.Journal
import MerkleStore.Store.Replay

/-!
# Writes on an intact store

In an intact store (`Store.Intact`) nothing is wrong: the state is sound, no tree is
out of service and the file keeps the state. An operation on a tree of such a store is
decided by the version the tree shows (`Store.carryOut_eq`): it asks the version for an
edit and lets that happen. So every operation leaves the store as it was or changes it
by one event (`Store.carryOut_cases`), and an event or opening the file again keeps it
intact (`Store.Intact.enter`, `Store.Intact.exists_reopen`).
-/

namespace MerkleStore

/-- What a journal says when it refuses a frame. -/
def Error.refusesFrame : Error → Bool
  | .invalidArgument (.frameTooLarge _) | .encoding .numberTooLarge => true
  | _ => false

namespace Store

variable {s s' : Store} {t : TreeId} {h : History} {v : Version} {e : Edit} {ev : Event}
  {U : Set Node} {key value : Bytes} {reference : Option Hash} {side : Option Side}
  {expected : Option (Option Hash)}

/-- Opens the file behind a store again; a store that lives in memory stays open. -/
def reopen (s : Store) : Except Error Store :=
  match s.journal with
  | none => .ok s
  | some f => ofFile f.codec f.bytes

/-- Nothing is wrong with a store that has made nodes of a set. -/
structure Intact (U : Set Node) (s : Store) : Prop where
  sound : s.state.Sound
  within : s.state.nodes.Within U
  served : s.quarantined = ∅
  kept : ∀ f, s.journal = some f → f.Keeps s.state

theorem Intact.volatile (U : Set Node) : volatile.Intact U where
  sound := .empty
  within := by simp [NodeMap.Within, Store.volatile, State.empty]
  served := rfl
  kept := by simp [Store.volatile]

theorem Intact.create (z : Codec) (U : Set Node) : (create z).Intact U where
  sound := .empty
  within := by simp [NodeMap.Within, Store.create, State.empty]
  served := rfl
  kept := by
    rintro f ⟨rfl⟩
    exact .create z

theorem Intact.isOutOfService (hs : s.Intact U) (t : TreeId) : s.isOutOfService t = false := by
  simp [Store.isOutOfService, hs.served]

/-! ## Events -/

/-- The records of an event go into the file, if there is one. -/
theorem record_eq_ok {rs : List Record} {journal : Option Journal}
    (h : s.record rs = .ok journal) :
    (s.journal = none ∧ journal = none) ∨
      ∃ f frame, s.journal = some f ∧ Frame.encode f.codec rs = .ok frame ∧
        journal = some (f.write frame) := by
  rw [record] at h
  cases hf : s.journal with
  | none =>
      simp only [hf, Except.ok.injEq] at h
      exact .inl ⟨rfl, h.symm⟩
  | some f =>
      simp only [hf] at h
      cases hframe : Frame.encode f.codec rs with
      | error err => simp [hframe] at h
      | ok frame =>
          simp only [hframe, Except.ok.injEq] at h
          exact .inr ⟨f, frame, rfl, hframe, h.symm⟩

/-- An event keeps a store intact. -/
theorem Intact.enter (hs : s.Intact U) (hU : Set.InjOn Node.hash U) (hev : ∀ n ∈ ev.made, n ∈ U)
    (ha : s.state.Admits ev) : (enter ev s).2.Intact U := by
  rw [Store.enter]
  cases hr : s.record (s.state.transactionFor ev).records with
  | error err => exact hs
  | ok journal =>
      refine ⟨hs.sound.after hs.within hU hev ha, State.within_after hs.within hev, hs.served, ?_⟩
      rintro f rfl
      obtain ⟨s₁, happly, hafter⟩ := State.exists_applyAll_transactionFor ha
      rcases record_eq_ok hr with ⟨-, hnone⟩ | ⟨f, frame, hf, hframe, ⟨rfl⟩⟩
      · cases hnone
      · exact (hs.kept f hf).write hframe happly
          (hafter ▸ (State.alike_foldl_updateIndex _ _).symm)

/-- Only a journal refuses an event, for the size of a frame or of a number in it. -/
theorem refusesFrame_of_enter {err : Error} (h : enter ev s = (.error err, s')) :
    err.refusesFrame = true ∧ ∃ f, s.journal = some f := by
  rw [enter, record] at h
  cases hf : s.journal with
  | none => simp [hf] at h
  | some f =>
      refine ⟨?_, f, rfl⟩
      cases hframe : Frame.encode f.codec (s.state.transactionFor ev).records with
      | ok frame => simp [hf, hframe] at h
      | error err' =>
          simp only [hf, hframe, Prod.mk.injEq, Except.error.injEq] at h
          obtain ⟨rfl, -⟩ := h
          rw [Frame.encode] at hframe
          split at hframe
          · simp only at hframe
            split at hframe <;> cases hframe
            rfl
          · cases hframe
            rfl

/-- An event happens, or the journal refuses it and nothing does. -/
theorem enter_cases (ev : Event) (s : Store) :
    (∃ err, enter ev s = (.error err, s)) ∨ ∃ s', enter ev s = (.ok (), s') := by
  rw [enter]
  cases s.record (s.state.transactionFor ev).records with
  | error err => exact .inl ⟨err, rfl⟩
  | ok journal => exact .inr ⟨_, rfl⟩

/-- What opens from the file again is the same store but for its indexes. -/
theorem Intact.exists_reopen (hs : s.Intact U) :
    ∃ s', s.reopen = .ok s' ∧ s'.Intact U ∧ s'.state.Alike s.state ∧ s'.journal = s.journal := by
  rw [reopen]
  cases hf : s.journal with
  | none => exact ⟨s, rfl, hs, .refl _, hf⟩
  | some f =>
      obtain ⟨state, hrecover, halike, hsound⟩ := (hs.kept f hf).exists_recover hs.sound
      refine ⟨⟨state, some f, ∅⟩, ?_, ⟨hsound, halike.nodes ▸ hs.within, rfl, ?_⟩, halike, rfl⟩
      · simp only [ofFile, hrecover, bind, Except.bind, pure, Except.pure]
      · rintro f' ⟨rfl⟩
        exact (hs.kept f hf).congr halike.symm

/-! ## Writes -/

/-- A tree is served and shows a version. -/
structure Serves (s : Store) (t : TreeId) (h : History) (v : Version) : Prop where
  served : s.isOutOfService t = false
  tree : s.state.trees[t]? = some h
  inOrder : h.InOrder t
  shows : h.Shows s.state.nodes v

theorem Intact.exists_serves (hs : s.Intact U) (ht : s.state.trees[t]? = some h) :
    ∃ es v, h.Made s.state.nodes t es v ∧ s.Serves t h v := by
  obtain ⟨es, v, hm⟩ := hs.sound.trees t h ht
  exact ⟨es, v, hm, hs.isOutOfService t, ht, hm.inOrder, hm.shows⟩

theorem Serves.admits (hv : s.Serves t h e.source) (hf : e.Fresh) :
    s.state.Admits (.edit t e) :=
  ⟨h, hv.tree, hv.inOrder, hv.shows, hf⟩

/-- Lets an edit happen; where a root is expected, only if the edit leads to it. -/
def enterToward (t : TreeId) (h : History) (e : Edit) (expected : Option (Option Hash)) :
    Action Unit :=
  match expected with
  | some root =>
      if e.target.hash = root then enter (.edit t e)
      else .fail (.integrity (.replay t (h.latest.generation + 1) e.target.hash root))
  | none => enter (.edit t e)

theorem commitDraft_draftOf (hv : s.Serves t h e.source) (hf : e.Fresh) :
    commitDraft t (s.state.draftOf t h e) expected s = enterToward t h e expected s := by
  have hcommit : commit (s.state.draftOf t h e).transaction s = enter (.edit t e) s := by
    have := commit_transactionFor (hv.admits hf)
    rwa [State.transactionFor, hv.tree] at this
  cases expected with
  | none => exact hcommit
  | some root =>
      simp only [commitDraft, enterToward]
      have hroot : (s.state.draftOf t h e).root = e.target.hash := rfl
      rw [hroot]
      split
      · exact hcommit
      · rfl

/-- Carries out an operation, if it leads to the expected root. -/
def carryOut (t : TreeId) (o : Operation) (expected : Option (Option Hash)) : Action Unit :=
  match o with
  | .insertion d => do
      let _ ← insertToward t d.key d.value d.reference d.side expected
  | .deletion d => deleteToward t d.key expected

theorem replayOne_eq (t : TreeId) (o : Operation) : replayOne t o = carryOut t o (some o.root) := by
  cases o <;> rfl

/-- An insertion that is carried out gives the hash of the new leaf. -/
theorem insert_eq (t : TreeId) (key value : Bytes) (reference : Option Hash) (side : Option Side) :
    insert t key value reference side = do
      carryOut t (.insertion ⟨default, key, value, reference, side, .pending⟩) none
      return Hash.terminal key value := by
  funext s
  simp only [insert, carryOut, insertToward, bind, Action.andThen, Action.read, pure, Action.done]
  cases s.requireInService t with
  | error err => rfl
  | ok _ =>
      dsimp only
      cases s.state.draftInsertion t key value reference side with
      | error err => rfl
      | ok d =>
          dsimp only
          obtain ⟨_ | _, _⟩ := commitDraft t d none s <;> rfl

/-- The version decides about an operation. -/
theorem carryOut_eq (hv : s.Serves t h v) (o : Operation) :
    carryOut t o expected s =
      match v.editFor t o with
      | .error err => (.error err, s)
      | .ok e => enterToward t h e expected s := by
  cases o with
  | insertion d =>
      simp only [carryOut, insertToward, bind, Action.andThen, Action.read, requireInService,
        hv.served, Bool.false_eq_true, if_false, State.draftInsertion_eq hv.tree hv.shows,
        Version.editFor, pure, Action.done]
      cases he : v.insertionEdit t d.key d.value d.reference d.side with
      | error err => rfl
      | ok e =>
          obtain ⟨rfl, hf, -⟩ := Version.of_insertionEdit he
          simp only [Except.map, commitDraft_draftOf hv hf]
          obtain ⟨_ | _, _⟩ := enterToward t h e expected s <;> rfl
  | deletion d =>
      simp only [carryOut, deleteToward, bind, Action.andThen, Action.read, requireInService,
        hv.served, Bool.false_eq_true, if_false, State.draftDeletion_eq hv.tree hv.shows,
        Version.editFor]
      cases he : v.deletionEdit t d.key with
      | error err => rfl
      | ok e =>
          obtain ⟨rfl, hf, -⟩ := Version.of_deletionEdit he
          simp only [Except.map, commitDraft_draftOf hv hf]

/-- Where no root is expected, only the version and the journal refuse an operation. -/
theorem fst_carryOut_eq_error (hv : s.Serves t h v) {o : Operation} {err : Error}
    (herr : err.refusesFrame = false) :
    (carryOut t o none s).1 = .error err ↔ v.editFor t o = .error err := by
  rw [carryOut_eq hv]
  cases he : v.editFor t o with
  | error err' => simp
  | ok e =>
      simp only [enterToward, reduceCtorEq, iff_false]
      intro heq
      have hentered : enter (.edit t e) s = (.error err, (enter (.edit t e) s).2) := by rw [← heq]
      have hrefuses := (refusesFrame_of_enter hentered).1
      rw [herr] at hrefuses
      cases hrefuses

/-- Nothing is carried out on a tree that is unknown. -/
theorem carryOut_unknown (hq : s.isOutOfService t = false) (ht : s.state.trees[t]? = none)
    (o : Operation) : carryOut t o expected s = (.error (.notFound (.tree t)), s) := by
  cases o <;>
    simp [carryOut, insertToward, deleteToward, bind, Action.andThen, Action.read, requireInService,
      hq, State.draftInsertion, State.draftDeletion, State.tree, ht, Except.bind]

theorem state_of_enter (h : enter ev s = (.ok (), s')) : s'.state = s.state.after ev := by
  rw [enter] at h
  split at h <;> cases h
  rfl

/-- A store does not get a journal by an event. -/
theorem journal_of_enter (h : enter ev s = (.ok (), s')) (hf : ∃ f, s'.journal = some f) :
    ∃ f, s.journal = some f := by
  rw [enter] at h
  split at h
  · cases h
  · next journal hr =>
      cases h
      rcases record_eq_ok hr with ⟨-, rfl⟩ | ⟨f, frame, hjournal, -⟩
      · obtain ⟨f, hf⟩ := hf
        cases hf
      · exact ⟨f, hjournal⟩

theorem enterToward_cases (t : TreeId) (h : History) (e : Edit) (expected : Option (Option Hash))
    (s : Store) :
    (∃ err, enterToward t h e expected s = (.error err, s)) ∨
      ∃ s', enter (.edit t e) s = (.ok (), s') ∧ enterToward t h e expected s = (.ok (), s') := by
  have hplain := (enter_cases (.edit t e) s).imp_right (Exists.imp fun _ hs' => And.intro hs' hs')
  cases expected with
  | none => exact hplain
  | some root =>
      simp only [enterToward]
      split
      · exact hplain
      · exact .inl ⟨_, rfl⟩

/-- An operation that is carried out is the edit the version has for it, and one that is
not leaves the store as it is. -/
theorem carryOut_cases (hs : s.Intact U) (t : TreeId) (o : Operation)
    (expected : Option (Option Hash)) :
    (∃ err, carryOut t o expected s = (.error err, s)) ∨
      ∃ h e s', s.Serves t h e.source ∧ e.source.editFor t o = .ok e ∧
        enter (.edit t e) s = (.ok (), s') ∧ carryOut t o expected s = (.ok (), s') := by
  cases ht : s.state.trees[t]? with
  | none => exact .inl ⟨_, carryOut_unknown (hs.isOutOfService t) ht o⟩
  | some h =>
      obtain ⟨-, v, -, hv⟩ := hs.exists_serves ht
      rw [carryOut_eq hv]
      cases he : v.editFor t o with
      | error err => exact .inl ⟨err, rfl⟩
      | ok e =>
          obtain ⟨rfl, -⟩ := Version.of_editFor he
          obtain herror | ⟨s', hs', heq⟩ := enterToward_cases t h e expected s
          · exact .inl herror
          · exact .inr ⟨h, e, s', hv, he, hs', heq⟩

/-! ## Other changes -/

theorem hasTree_iff : s.hasTree t = true ↔ ∃ h, s.state.trees[t]? = some h := by
  rw [hasTree, Std.ExtTreeMap.contains_iff_mem, Std.ExtTreeMap.mem_iff_isSome_getElem?,
    Option.isSome_iff_exists]

theorem admits_start (hno : ¬ s.hasTree t) : s.state.Admits (.start t) := by
  rwa [hasTree_iff, ← Option.ne_none_iff_exists', not_not] at hno

theorem addTree_eq (t : TreeId) (s : Store) :
    addTree t s = if s.hasTree t then (.error (.treeExists t), s) else enter (.start t) s := by
  rw [addTree]
  split
  · rfl
  · next hno => exact commit_transactionFor (admits_start hno)

theorem tree_of_servedTree (h₀ : s.servedTree t = .ok h) : s.state.trees[t]? = some h := by
  simp only [servedTree, bind, Except.bind] at h₀
  cases hq : s.requireInService t with
  | error err => simp [hq] at h₀
  | ok _ =>
      simp only [hq] at h₀
      exact State.tree_eq_ok.mp h₀

theorem exists_of_root {g : Nat} {r : Root} (hr : s.root t g = .ok r) :
    ∃ h, s.state.trees[t]? = some h ∧ h.roots[g]? = some r := by
  simp only [root, bind, Except.bind] at hr
  cases hh : s.servedTree t with
  | error err => simp [hh] at hr
  | ok h =>
      cases hg : h.roots[g]? with
      | none => simp [hh, hg, throw, throwThe, MonadExceptOf.throw] at hr
      | some r' =>
          simp only [hh, hg, pure, Except.pure, Except.ok.injEq] at hr
          exact ⟨h, tree_of_servedTree hh, hr ▸ hg⟩

theorem exists_of_latestRoot {r : Root} (hr : s.latestRoot t = .ok r) :
    ∃ h, s.state.trees[t]? = some h := by
  simp only [latestRoot, bind, Except.bind] at hr
  cases hh : s.servedTree t with
  | error err => simp [hh] at hr
  | ok h => exact ⟨h, tree_of_servedTree hh⟩

theorem admits_confirm {g : Nat} {r : Root} (hr : s.root t g = .ok r) :
    s.state.Admits (.confirm t g) := by
  obtain ⟨h, ht, hg⟩ := exists_of_root hr
  exact ⟨h, ht, (List.getElem?_eq_some_iff.mp hg).1⟩

theorem confirm_eq (t : TreeId) (g : Nat) (s : Store) :
    confirm t g s =
      match s.root t g with
      | .error err => (.error err, s)
      | .ok r => if r.status = .committed then (.ok (), s) else enter (.confirm t g) s := by
  simp only [confirm, bind, Action.andThen, Action.read]
  cases hr : s.root t g with
  | error err => rfl
  | ok r =>
      by_cases hstatus : r.status = .committed
      · simp [hstatus, pure, Action.done]
      · simp only [hstatus, if_false]
        exact commit_transactionFor (admits_confirm hr)

/-! ## Events in a row -/

/-- Events happen one after the other. -/
inductive Entered : Store → List Event → Store → Prop
  | nil (s : Store) : Entered s [] s
  | cons {s s' s'' : Store} {ev : Event} {evs : List Event} (ha : s.state.Admits ev)
      (hev : enter ev s = (.ok (), s')) (h : Entered s' evs s'') : Entered s (ev :: evs) s''

variable {evs : List Event}

theorem Entered.single (ha : s.state.Admits ev) (hev : enter ev s = (.ok (), s')) :
    Entered s [ev] s' :=
  .cons ha hev (.nil s')

/-- Events keep a store intact. -/
theorem Intact.entered (hs : s.Intact U) (hU : Set.InjOn Node.hash U)
    (hevs : ∀ ev ∈ evs, ∀ n ∈ ev.made, n ∈ U) (h : Entered s evs s') : s'.Intact U := by
  induction h with
  | nil s => exact hs
  | @cons s s' s'' ev evs ha hev h ih =>
      have hs' := hs.enter hU (hevs ev List.mem_cons_self) ha
      rw [hev] at hs'
      exact ih hs' fun ev hmem => hevs ev (List.mem_cons_of_mem _ hmem)

end Store

end MerkleStore
