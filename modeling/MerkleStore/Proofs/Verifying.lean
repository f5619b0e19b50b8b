import MerkleStore.Proofs.Batches
import MerkleStore.Proofs.Repeating

/-!
# Repeating operations step by step

Whatever operations are to be repeated on a tree, made up or not, each is worked out and compared
with the root it gives before anything of it is committed (`Store.Verifies`). So there is a longest
front part of the operations that can be repeated one by one; these give the tree its new
generations, and the call ends with what the next operation fails with, in the very store that the
front part has left (`replay_verified`). Nothing is assumed about digests.
-/

namespace MerkleStore

@[simp] theorem History.latest_log (h : History) (o : Operation) (u : IndexChange) :
    (h.log o u).latest = h.latest.next o.root := by
  simp [latest, log]

namespace State

variable {s s' : State} {t : TreeId} {h : History} {o : Operation} {d : Draft}

/-- The generation that an operation works out. -/
def draftBy (s : State) (t : TreeId) : Operation → Except Error Draft
  | .insertion d => s.draftInsertion t d.key d.value d.reference d.side
  | .deletion d => s.draftDeletion t d.key

theorem Orderly.exists_extends_draftBy (ho : s.Orderly) (hd : s.draftBy t o = .ok d) :
    ∃ h o', s.trees[t]? = some h ∧ d.Extends s t h o' := by
  cases o with
  | insertion data =>
      exact exists_extends_draftInsertion ho.grounded (fun h ht => ho.stored_latest ht) hd
  | deletion data => exact exists_extends_draftDeletion ho.grounded hd

theorem Logs.exists_log (hl : s.Logs t o s') (ht : s.trees[t]? = some h) :
    ∃ u, s'.trees[t]? = some (h.log o u) := by
  cases hl with
  | @intro h' ns u ht' hg hroot hstatus =>
      obtain rfl : h' = h := Option.some.inj (ht'.symm.trans ht)
      exact ⟨u, by rw [getElem?_setTree, if_pos rfl]⟩

/-- Every operation works out the generation behind the last one. -/
theorem generation_of_draftBy (ht : s.trees[t]? = some h) (hd : s.draftBy t o = .ok d) :
    d.generation = h.latest.generation + 1 := by
  have htree {h' : History} (htree : s.tree t = .ok h') : h' = h :=
    Option.some.inj ((tree_eq_ok.mp htree).symm.trans ht)
  cases o with
  | insertion data =>
      obtain ⟨h', hh, hd⟩ := bind_eq_ok.mp hd
      obtain rfl := htree hh
      split at hd
      · cases hd
      · obtain ⟨place, -, hd⟩ := bind_eq_ok.mp hd
        cases place with
        | top =>
            cases hd
            rfl
        | beside r side path =>
            obtain ⟨⟨tx, u, root⟩, -, hd⟩ := bind_eq_ok.mp hd
            cases hd
            rfl
  | deletion data =>
      obtain ⟨h', hh, hd⟩ := bind_eq_ok.mp hd
      obtain rfl := htree hh
      split at hd
      · cases hd
      · split at hd
        · cases hd
        · cases hd
          rfl
        · obtain ⟨n, -, hd⟩ := bind_eq_ok.mp hd
          split at hd
          · cases hd
          · obtain ⟨⟨tx, u, root⟩, -, hd⟩ := bind_eq_ok.mp hd
            cases hd
            rfl

end State

namespace Store

variable {s s' : Store} {t : TreeId} {h : History} {o : Operation} {os : List Operation}
  {d : Draft} {expected : Option (Option Hash)}

/-- An operation is worked out first, and then its draft is committed. -/
theorem carryOut_eq_commitDraft (hserved : s.isOutOfService t = false)
    (hd : s.state.draftBy t o = .ok d) : carryOut t o expected s = commitDraft t d expected s := by
  cases o with
  | insertion data =>
      have hd : s.state.draftInsertion t data.key data.value data.reference data.side = .ok d := hd
      simp only [carryOut, insertToward, bind, Action.andThen, Action.read, pure, Action.done,
        requireInService, hserved, Bool.false_eq_true, if_false, hd]
      obtain ⟨result, s'⟩ := commitDraft t d expected s
      cases result <;> rfl
  | deletion data =>
      have hd : s.state.draftDeletion t data.key = .ok d := hd
      simp only [carryOut, deleteToward, bind, Action.andThen, Action.read, requireInService,
        hserved, Bool.false_eq_true, if_false, hd]

theorem carryOut_eq_error {e : Error} (hserved : s.isOutOfService t = false)
    (hd : s.state.draftBy t o = .error e) : carryOut t o expected s = (.error e, s) := by
  cases o with
  | insertion data =>
      have hd : s.state.draftInsertion t data.key data.value data.reference data.side = .error e :=
        hd
      simp [carryOut, insertToward, bind, Action.andThen, Action.read, requireInService, hserved,
        hd]
  | deletion data =>
      have hd : s.state.draftDeletion t data.key = .error e := hd
      simp [carryOut, deleteToward, bind, Action.andThen, Action.read, requireInService, hserved,
        hd]

/-- Only the file can refuse a draft. -/
theorem Orderly.commit_draft (ho : s.Orderly) (hd : s.state.draftBy t o = .ok d) :
    (∃ f e, s.journal = some f ∧ Frame.encode f.codec d.transaction.records = .error e ∧
      commit d.transaction s = (.error e, s)) ∨
    ∃ s', commit d.transaction s = (.ok (), s') := by
  obtain ⟨h, o', ht, ⟨ns, -, -, hrecords⟩, ⟨u, hupdates⟩, -⟩ := ho.state.exists_extends_draftBy hd
  have hin := (ho.state.trees t h ht).inOrder
  have hcheck := State.checkBatch_log ht hin ns o'
  have happly := State.applyAll_log ht hin ns o'
  rw [← hrecords] at hcheck happly
  have hsettles := settles_commit hcheck happly
  generalize commit d.transaction s = result at hsettles ⊢
  cases hsettles with
  | void hvoid => exact .inr ⟨s, rfl⟩
  | refused hf hframe => exact .inl ⟨_, _, hf, hframe, rfl⟩
  | logged hf hframe hstate => exact .inr ⟨_, rfl⟩
  | inMemory hf hstate => exact .inr ⟨_, rfl⟩

/-- How it ends to make an operation again. Only where it has worked out just the root that the
operation gives the store is another one afterwards: that to which the operation would have led if
nothing had been compared. -/
inductive Verifies (s : Store) (t : TreeId) (o : Operation) : Except Error Unit × Store → Prop
  | impossible {e : Error} (hdraft : s.state.draftBy t o = .error e) : Verifies s t o (.error e, s)
  | elsewhere {d : Draft} (hdraft : s.state.draftBy t o = .ok d) (hroot : d.root ≠ o.root) :
      Verifies s t o (.error (.integrity (.replay t d.generation d.root o.root)), s)
  | refused {d : Draft} {f : Journal} {e : Error} (hdraft : s.state.draftBy t o = .ok d)
      (hroot : d.root = o.root) (hf : s.journal = some f)
      (hframe : Frame.encode f.codec d.transaction.records = .error e) :
      Verifies s t o (.error e, s)
  | made {d : Draft} {s' : Store} (hdraft : s.state.draftBy t o = .ok d) (hroot : d.root = o.root)
      (hs' : carryOut t o none s = (.ok (), s')) : Verifies s t o (.ok (), s')

theorem Orderly.verifies (ho : s.Orderly) (hserved : s.isOutOfService t = false) (o : Operation) :
    s.Verifies t o (replayOne t o s) := by
  rw [replayOne_eq]
  cases hdraft : s.state.draftBy t o with
  | error e =>
      rw [carryOut_eq_error hserved hdraft]
      exact .impossible hdraft
  | ok d =>
      rw [carryOut_eq_commitDraft hserved hdraft, commitDraft]
      by_cases hroot : d.root = o.root
      · rw [if_pos hroot]
        rcases ho.commit_draft hdraft with ⟨f, e, hf, hframe, hcommit⟩ | ⟨s', hcommit⟩
        · rw [hcommit]
          exact .refused hdraft hroot hf hframe
        · rw [hcommit]
          exact .made hdraft hroot ((carryOut_eq_commitDraft hserved hdraft).trans hcommit)
      · rw [if_neg hroot]
        exact .elsewhere hdraft hroot

/-- An operation that leads somewhere has worked out the root that is the latest one then. -/
theorem Orderly.exists_draft_of_carryOut (ho : s.Orderly) (hserved : s.isOutOfService t = false)
    {r : Root} (hs' : carryOut t o none s = (.ok (), s')) (hr : s'.latestRoot t = .ok r) :
    ∃ d, s.state.draftBy t o = .ok d ∧ d.generation = r.generation ∧ d.root = r.node := by
  cases hdraft : s.state.draftBy t o with
  | error e =>
      rw [carryOut_eq_error hserved hdraft] at hs'
      cases hs'
  | ok d =>
      obtain ⟨h, o', ht, hd⟩ := ho.state.exists_extends_draftBy hdraft
      rw [carryOut_eq_commitDraft hserved hdraft] at hs'
      rcases commitDraft_cases hd ht (ho.state.trees t h ht).inOrder none with
        ⟨e, herror⟩ | ⟨s₁, hl, hw, -, hok⟩
      · rw [herror] at hs'
        cases hs'
      · obtain rfl : s₁ = s' := congrArg Prod.snd (hok.symm.trans hs')
        obtain ⟨u, ht'⟩ := hl.exists_log ht
        have hserved' : s₁.isOutOfService t = false := by rwa [isOutOfService, hw.quarantined]
        rw [latestRoot_of_servedTree (servedTree_eq_ok.mpr ⟨hserved', ht'⟩),
          Except.ok.injEq] at hr
        refine ⟨d, rfl, ?_, ?_⟩
        · rw [State.generation_of_draftBy ht hdraft, ← hr, History.latest_log]
          rfl
        · rw [hd.root, ← hr, History.latest_log]
          rfl

/-- An operation is made again just if it would lead to the root it gives if nothing were compared;
otherwise the two roots are told apart and nothing is committed. -/
theorem Orderly.replayOne_of_carryOut (ho : s.Orderly) (hserved : s.isOutOfService t = false)
    {r : Root} (hs' : carryOut t o none s = (.ok (), s')) (hr : s'.latestRoot t = .ok r) :
    (r.node = o.root → replayOne t o s = (.ok (), s')) ∧
      (r.node ≠ o.root →
        replayOne t o s = (.error (.integrity (.replay t r.generation r.node o.root)), s)) := by
  obtain ⟨d, hdraft, hgeneration, hnode⟩ := ho.exists_draft_of_carryOut hserved hs' hr
  rw [← hnode, ← hgeneration, replayOne_eq, carryOut_eq_commitDraft hserved hdraft, commitDraft]
  refine ⟨fun hroot => ?_, fun hroot => ?_⟩
  · rw [if_pos hroot]
    exact (carryOut_eq_commitDraft hserved hdraft).symm.trans hs'
  · rw [if_neg hroot]
    rfl

/-! ## Rows of operations -/

/-- An operation is made again and leads to the root it gives. -/
def Repeats (t : TreeId) (s : Store) (o : Operation) (s' : Store) : Prop :=
  replayOne t o s = (.ok (), s')

theorem Repeats.unique {s₁ s₂ : Store} (h₁ : Repeats t s o s₁) (h₂ : Repeats t s o s₂) :
    s₁ = s₂ := congrArg Prod.snd (h₁.symm.trans h₂)

/-- Operations that are repeated one by one give the tree its new generations. -/
theorem replayed_of_repeats (ho : s.Orderly) (hrow : Along (Repeats t) s os s') :
    s.Replayed s' t os := by
  induction hrow with
  | nil s => exact .refl ho t
  | @cons s s₁ s' o os hone hrest ih =>
      rw [Repeats] at hone
      rcases replayOne_cases ho t o with ⟨e, heq⟩ | ⟨s₂, heq, hreplayed⟩
      · rw [heq] at hone
        cases hone
      · obtain rfl : s₂ = s₁ := congrArg Prod.snd (heq.symm.trans hone)
        exact hreplayed.trans (ih hreplayed.orderly)

/-- The call goes on after operations that are repeated one by one. -/
theorem replayFrom_of_repeats (hrow : Along (Repeats t) s os s') (root : Option Hash)
    (os' : List Operation) :
    replayFrom t root (os ++ os') s =
      replayFrom t ((os.map Operation.root).getLastD root) os' s' := by
  induction hrow generalizing root with
  | nil s => rfl
  | @cons s s₁ s' o os hone hrest ih =>
      rw [Repeats] at hone
      simp only [List.cons_append, replayFrom, bind, Action.andThen, hone, ih, List.map_cons,
        List.getLastD_cons]

theorem replay_of_repeats (hs : s.servedTree t = .ok h) (hrow : Along (Repeats t) s os s')
    (os' : List Operation) :
    replay t (os ++ os') s =
      replayFrom t ((os.map Operation.root).getLastD h.latest.node) os' s' := by
  simp only [replay, bind, Action.andThen, Action.read, latestRoot_of_servedTree hs,
    replayFrom_of_repeats hrow]

/-- Operations are repeated on a tree as long as each of them leads to the root it gives. -/
theorem Orderly.exists_replay (ho : s.Orderly) (ht : s.state.trees[t]? = some h)
    (hserved : s.isOutOfService t = false) (os : List Operation) :
    ∃ i ≤ os.length, ∃ s' h', Along (Repeats t) s (os.take i) s' ∧
      (∀ j ≤ os.length, (∃ s₁, Along (Repeats t) s (os.take j) s₁) ↔ j ≤ i) ∧
      s.state.Appends s'.state t (os.take i) ∧
      s'.state.trees[t]? = some h' ∧ h.Appended h' (os.take i) ∧
      (i = os.length ∧ replay t os s = (.ok h'.latest.node, s') ∨
        ∃ o e, os[i]? = some o ∧ replayOne t o s' = (.error e, s') ∧
          replay t os s = (.error e, s')) := by
  have hs : s.servedTree t = .ok h := servedTree_eq_ok.mpr ⟨hserved, ht⟩
  obtain ⟨i, hi, s', hrow, hlongest, hstop⟩ := exists_longest (R := Repeats t) Repeats.unique s os
  have hreplayed := replayed_of_repeats ho hrow
  obtain ⟨h', hs', happended⟩ := hreplayed.servedTree hs
  obtain ⟨hserved', ht'⟩ := servedTree_eq_ok.mp hs'
  refine ⟨i, hi, s', h', hrow, hlongest, hreplayed.appends, ht', happended, ?_⟩
  have hreplay := replay_of_repeats hs hrow (os.drop i)
  rw [List.take_append_drop, ← happended.node_latest] at hreplay
  cases ho' : os[i]? with
  | none =>
      have hlength : os.length ≤ i := List.getElem?_eq_none_iff.mp ho'
      rw [List.drop_eq_nil_of_le hlength] at hreplay
      exact .inl ⟨Nat.le_antisymm hi hlength, hreplay⟩
  | some o =>
      obtain ⟨e, hfails⟩ := (replayOne_cases hreplayed.orderly t o).resolve_right fun hmade => by
        obtain ⟨s'', hmade, -⟩ := hmade
        exact hstop o ho' s'' hmade
      have hdrop : os.drop i = o :: os.drop (i + 1) := by
        obtain ⟨hlt, rfl⟩ := List.getElem?_eq_some_iff.mp ho'
        exact List.drop_eq_getElem_cons hlt
      refine .inr ⟨o, e, rfl, hfails, ?_⟩
      rw [hreplay, hdrop]
      simp only [replayFrom, bind, Action.andThen, hfails]

end Store

/-- In every state that a run leads to, operations are repeated on a tree that is served up to the
first one that fails: there is a longest front part of which each operation leads to the root it
gives. For each of these the tree has one pending generation more, with that root, and the call
ends with the last root or with what the next operation fails with, and with the store that the
front part has left. An operation that would lead to another root than it gives is never
committed. -/
theorem replay_verified {s₀ s : Store} (hnew : s₀.IsNew) {steps : List Step}
    (hrun : run s₀ steps = .ok s) {t : TreeId} {h : History} (ht : s.state.trees[t]? = some h)
    (hserved : s.isOutOfService t = false) (os : List Operation) :
    (∃ i ≤ os.length, ∃ s' h', Along (Store.Repeats t) s (os.take i) s' ∧
      (∀ j ≤ os.length, (∃ s₁, Along (Store.Repeats t) s (os.take j) s₁) ↔ j ≤ i) ∧
      s.state.Appends s'.state t (os.take i) ∧
      s'.state.trees[t]? = some h' ∧ h.Appended h' (os.take i) ∧
      (i = os.length ∧ Store.replay t os s = (.ok h'.latest.node, s') ∨
        ∃ o e, os[i]? = some o ∧ Store.replayOne t o s' = (.error e, s') ∧
          Store.replay t os s = (.error e, s'))) ∧
    ∀ j s₁, Along (Store.Repeats t) s (os.take j) s₁ → ∀ o,
      s₁.Verifies t o (Store.replayOne t o s₁) ∧
      ∀ s₂ r, Store.carryOut t o none s₁ = (.ok (), s₂) → s₂.latestRoot t = .ok r →
        (r.node = o.root → Store.replayOne t o s₁ = (.ok (), s₂)) ∧
        (r.node ≠ o.root → Store.replayOne t o s₁ =
          (.error (.integrity (.replay t r.generation r.node o.root)), s₁)) := by
  have ho := hnew.orderly.of_run hrun
  refine ⟨ho.exists_replay ht hserved os, fun j s₁ hrow o => ?_⟩
  obtain ⟨happends, hquarantined, ho₁⟩ := Store.replayed_of_repeats ho hrow
  have hserved₁ : s₁.isOutOfService t = false := by rwa [Store.isOutOfService, hquarantined]
  exact ⟨ho₁.verifies hserved₁ o, fun s₂ r => ho₁.replayOne_of_carryOut hserved₁⟩

/-- Of these operations the first one leads to the root it gives; the second one, which says that
the tree gets empty, stops the call before the third one. -/
theorem replay_verified_of_sampleSteps :
    let o := Operation.insertion ⟨.internal (.terminal [2] [20]) (.terminal [3] [30]), [3], [30],
      some (.terminal [2] [20]), some .right, .committed⟩
    let forged := Operation.deletion ⟨none, [3], .pending⟩
    ∃ s h s₁ h₁, run (.create sampleCodec) sampleSteps = .ok s ∧
      s.state.trees[sampleTree]? = some h ∧
      Along (Store.Repeats sampleTree) s [o] s₁ ∧ s₁.state.trees[sampleTree]? = some h₁ ∧
      h.Appended h₁ [o] ∧
      Store.replay sampleTree [o, forged, o] s = (.error (.integrity
        (.replay sampleTree 5 (some (.terminal [2] [20])) none)), s₁) := by
  intro o forged
  have heval : (do
      let s ← (run (.create sampleCodec) sampleSteps).toOption
      let h ← s.state.trees[sampleTree]?
      let h₁ ← (Store.replay sampleTree [o, forged, o] s).2.state.trees[sampleTree]?
      return (s.isOutOfService sampleTree, h.roots.length, h₁.roots.length,
        decide ((Store.replay sampleTree [o, forged, o] s).1 = .error (.integrity
          (.replay sampleTree 5 (some (.terminal [2] [20])) none))))) =
        some (false, 4, 5, true) := by
    decide +kernel
  obtain ⟨s, hrun, -⟩ := (Store.Orderly.create sampleCodec).exists_run sampleSteps
  simp only [hrun, Except.toOption, bind, Option.bind_some, Option.bind_eq_some_iff, pure,
    Option.some.injEq, Prod.mk.injEq, decide_eq_true_eq] at heval
  obtain ⟨h, ht, h₁, ht₁, hserved, hlength, hlength₁, herror⟩ := heval
  obtain ⟨⟨i, -, s', h', hrow, -, -, ht', happended, hends⟩, -⟩ :=
    replay_verified (.inr ⟨_, rfl⟩) hrun ht hserved [o, forged, o]
  rcases hends with ⟨-, hok⟩ | ⟨o', e, ho', -, hfails⟩
  · rw [hok] at herror
    cases herror
  · rw [hfails] at ht₁ herror
    obtain rfl : h' = h₁ := Option.some.inj (ht'.symm.trans ht₁)
    obtain rfl : e = _ := Except.error.inj herror
    have hi := happended.length_roots
    rw [hlength, hlength₁, List.length_take] at hi
    obtain ⟨hlt, -⟩ := List.getElem?_eq_some_iff.mp ho'
    obtain rfl : i = 1 := by omega
    exact ⟨s, h, s', h', hrun, ht, hrow, ht', happended, hfails⟩

end MerkleStore
