import Mathlib.Logic.Relation
import MerkleStore.Proofs.Growth
import MerkleStore.Proofs.Run

/-!
# Writes of a store

Whatever a call does, it does by writes: the state grows, and the records that are
written down for it make it grow likewise when they are read (`Store.Writes`). A call
that fails has made some of its writes or none. So every run leaves an orderly store
(`Store.Orderly.exists_run`), and the file of an orderly store can always be opened
(`Store.Orderly.exists_reopen`). As in the state, nothing is assumed about digests.
-/

namespace MerkleStore

namespace Store

variable {s s' : Store} {t : TreeId}

/-- A store after one write: the state has grown, and the file, if there is one, has got a
frame with which it grows likewise when the file is read. -/
structure Writes (s s' : Store) : Prop where
  grows : s.state.Grows s'.state
  quarantined : s'.quarantined = s.quarantined
  logged : (s.journal = none ∧ s'.journal = none) ∨ ∃ f frame rs state, s.journal = some f ∧
    s'.journal = some (f.write frame) ∧ Frame.encode f.codec rs = .ok frame ∧
    s.state.applyAll rs = .ok state ∧ state.Alike s'.state

/-- A commit fails and leaves the store as it is, has nothing to do, or makes all of its
records durable and visible. -/
theorem commit_cases (tx : Transaction) (s : Store) :
    (∃ e, commit tx s = (.error e, s)) ∨ (tx.isVoid = true ∧ commit tx s = (.ok (), s)) ∨
      ∃ journal state, s.state.checkBatch tx.records = .ok () ∧
        s.record tx.records = .ok journal ∧ s.state.applyAll tx.records = .ok state ∧
        commit tx s = (.ok (), { s with
          state := tx.updates.foldl (fun state u => state.updateIndex u.1 u.2) state
          journal }) := by
  cases hvoid : tx.isVoid with
  | true => exact .inr (.inl ⟨rfl, by rw [commit, hvoid]; rfl⟩)
  | false =>
      cases hcheck : s.state.checkBatch tx.records with
      | error e => exact .inl ⟨e, by simp [commit, hvoid, hcheck]⟩
      | ok _ =>
          cases hrecord : s.record tx.records with
          | error e => exact .inl ⟨e, by simp [commit, hvoid, hcheck, hrecord]⟩
          | ok journal =>
              obtain ⟨state, happly⟩ := State.exists_applyAll_of_checkBatch hcheck
              exact .inr (.inr ⟨journal, state, rfl, rfl, happly, by
                simp [commit, hvoid, hcheck, hrecord, happly]⟩)

/-- What a commit has written down and made visible is one write. -/
theorem writes_of_record {tx : Transaction} {journal : Option Journal} {state state' : State}
    (hrecord : s.record tx.records = .ok journal) (happly : s.state.applyAll tx.records = .ok state)
    (hstate : tx.updates.foldl (fun state u => state.updateIndex u.1 u.2) state = state')
    (hg : s.state.Grows state') : s.Writes { s with state := state', journal } where
  grows := hg
  quarantined := rfl
  logged := by
    rcases record_eq_ok hrecord with ⟨hnone, rfl⟩ | ⟨f, frame, hf, hframe, rfl⟩
    · exact .inl ⟨hnone, rfl⟩
    · exact .inr ⟨f, frame, tx.records, state, hf, rfl, hframe, happly,
        hstate ▸ (State.alike_foldl_updateIndex state tx.updates).symm⟩

/-- Committing a draft fails and leaves the store as it is, or is one write. -/
theorem commitDraft_cases {d : Draft} {h : History} {o : Operation}
    (hd : d.Extends s.state t h o) (ht : s.state.trees[t]? = some h) (ho : h.InOrder t)
    (expected : Option (Option Hash)) :
    (∃ e, commitDraft t d expected s = (.error e, s)) ∨
      ∃ s', s.state.Logs t o s'.state ∧ s.Writes s' ∧
        (∀ root, expected = some root → o.root = root) ∧
        commitDraft t d expected s = (.ok (), s') := by
  obtain ⟨⟨ns, hgrounded, hroot, hrecords⟩, ⟨u, hupdates⟩, hdroot, hpending⟩ := hd
  have hcommit : (∃ e, commit d.transaction s = (.error e, s)) ∨
      ∃ s', s.state.Logs t o s'.state ∧ s.Writes s' ∧ commit d.transaction s = (.ok (), s') := by
    rcases commit_cases d.transaction s with herror | ⟨hvoid, -⟩ |
      ⟨journal, state, -, hrecord, happly, heq⟩
    · exact .inl herror
    · simp [Transaction.isVoid, hupdates] at hvoid
    · have hlog := State.applyAll_log ht ho ns o
      rw [← hrecords, happly, Except.ok.injEq] at hlog
      have hstate : d.transaction.updates.foldl (fun state u => state.updateIndex u.1 u.2) state =
          { s.state with nodes := s.state.nodes.addAll ns }.setTree t (h.log o u) := by
        rw [hupdates, hlog]
        exact State.updateIndex_log _ t h o u
      have hl : s.state.Logs t o _ := .intro u ht hgrounded hroot hpending
      exact .inr ⟨_, hl, writes_of_record hrecord happly hstate (.log hl), hstate ▸ heq⟩
  cases expected with
  | none =>
      obtain herror | ⟨s', hl, hw, heq⟩ := hcommit
      · exact .inl herror
      · exact .inr ⟨s', hl, hw, by simp, heq⟩
  | some root =>
      simp only [commitDraft]
      split
      · next heq =>
          obtain herror | ⟨s', hl, hw, hs'⟩ := hcommit
          · exact .inl herror
          · refine .inr ⟨s', hl, hw, ?_, hs'⟩
            rintro root' ⟨rfl⟩
            exact hdroot.symm.trans heq
      · exact .inl ⟨_, rfl⟩

/-- An operation is one write that leads to the expected root, or fails and leaves the
store as it is. -/
theorem carryOut_writes (ho : s.state.Orderly) (t : TreeId) (o : Operation)
    (expected : Option (Option Hash)) :
    (∃ e, carryOut t o expected s = (.error e, s)) ∨
      ∃ o' s', s.state.Logs t o' s'.state ∧ s.Writes s' ∧
        (∀ root, expected = some root → o'.root = root) ∧
        carryOut t o expected s = (.ok (), s') := by
  cases hserve : s.requireInService t with
  | error e => exact .inl ⟨e, by
      cases o <;> simp [carryOut, insertToward, deleteToward, bind, Action.andThen, Action.read,
        hserve]⟩
  | ok _ =>
      cases o with
      | insertion d =>
          simp only [carryOut, insertToward, bind, Action.andThen, Action.read, pure, Action.done,
            hserve]
          cases hdraft : s.state.draftInsertion t d.key d.value d.reference d.side with
          | error e => exact .inl ⟨e, rfl⟩
          | ok draft =>
              obtain ⟨h, o, ht, hd⟩ := State.exists_extends_draftInsertion ho.grounded
                (fun h ht => ho.stored_latest ht) hdraft
              rcases commitDraft_cases hd ht (ho.trees t h ht).inOrder expected with
                ⟨e, heq⟩ | ⟨s', hl, hw, hroot, heq⟩
              · exact .inl ⟨e, by simp only [heq]⟩
              · exact .inr ⟨o, s', hl, hw, hroot, by simp only [heq]⟩
      | deletion d =>
          simp only [carryOut, deleteToward, bind, Action.andThen, Action.read, hserve]
          cases hdraft : s.state.draftDeletion t d.key with
          | error e => exact .inl ⟨e, rfl⟩
          | ok draft =>
              obtain ⟨h, o, ht, hd⟩ := State.exists_extends_draftDeletion ho.grounded hdraft
              obtain herror | ⟨s', hs'⟩ :=
                commitDraft_cases hd ht (ho.trees t h ht).inOrder expected
              · exact .inl herror
              · exact .inr ⟨o, s', hs'⟩

theorem enter_writes {ev : Event} (ha : s.state.Admits ev)
    (hg : s.state.Grows (s.state.after ev)) :
    (∃ e, enter ev s = (.error e, s)) ∨
      ∃ s', s'.state = s.state.after ev ∧ s.Writes s' ∧ enter ev s = (.ok (), s') := by
  obtain ⟨state, happly, hstate⟩ := State.exists_applyAll_transactionFor ha
  rw [enter]
  cases hrecord : s.record (s.state.transactionFor ev).records with
  | error e => exact .inl ⟨e, rfl⟩
  | ok journal => exact .inr ⟨_, rfl, writes_of_record hrecord happly hstate hg, rfl⟩

/-! ## Orderly stores -/

/-- A store with an orderly state that its file keeps. -/
structure Orderly (s : Store) : Prop where
  state : s.state.Orderly
  kept : ∀ f, s.journal = some f → f.Keeps s.state

theorem Orderly.volatile : volatile.Orderly where
  state := .empty
  kept := by simp [Store.volatile]

theorem Orderly.create (z : Codec) : (create z).Orderly where
  state := .empty
  kept := by
    rintro f ⟨rfl⟩
    exact .create z

/-- A write keeps a store orderly. -/
theorem Orderly.writes (ho : s.Orderly) (hw : s.Writes s') : s'.Orderly where
  state := ho.state.grows hw.grows
  kept := by
    intro f hf
    rcases hw.logged with ⟨-, hnone⟩ | ⟨f', frame, rs, state, hf', hs', hframe, happly, halike⟩
    · rw [hnone] at hf
      cases hf
    · rw [hs'] at hf
      cases hf
      exact (ho.kept f' hf').write hframe happly halike

theorem Orderly.writesAll (ho : s.Orderly) (hw : Relation.ReflTransGen Writes s s') :
    s'.Orderly := by
  induction hw with
  | refl => exact ho
  | tail _ hw ih => exact ih.writes hw

/-- What opens from the file again is the same store but for its indexes. -/
theorem Orderly.exists_reopen (ho : s.Orderly) :
    ∃ s', s.reopen = .ok s' ∧ s'.Orderly ∧ s'.state.Alike s.state ∧ s'.journal = s.journal := by
  rw [reopen]
  cases hf : s.journal with
  | none => exact ⟨s, rfl, ho, .refl _, hf⟩
  | some f =>
      obtain ⟨state, hrecover, halike⟩ := (ho.kept f hf).exists_recover_of_reindex
        fun _ halike => ho.state.exists_reindex halike
      refine ⟨⟨state, some f, ∅⟩, ?_, ⟨ho.state.alike halike, ?_⟩, halike, rfl⟩
      · simp only [ofFile, hrecover, bind, Except.bind, pure, Except.pure]
      · rintro f' ⟨rfl⟩
        exact (ho.kept f hf).congr halike.symm

/-! ### Calls -/

theorem addTree_writes (t : TreeId) (s : Store) :
    (∃ e, addTree t s = (.error e, s)) ∨
      ∃ s', s'.state = s.state.after (.start t) ∧ s.Writes s' ∧ addTree t s = (.ok (), s') := by
  rw [addTree_eq]
  split
  · exact .inl ⟨_, rfl⟩
  · next hno => exact enter_writes (admits_start hno) (.start (admits_start hno))

theorem confirm_writes (t : TreeId) (g : Nat) (s : Store) :
    (∃ e, confirm t g s = (.error e, s)) ∨
      (∃ r, s.root t g = .ok r ∧ r.status = .committed ∧ confirm t g s = (.ok (), s)) ∨
      ∃ s', s.state.Admits (.confirm t g) ∧ s'.state = s.state.after (.confirm t g) ∧
        s.Writes s' ∧ confirm t g s = (.ok (), s') := by
  rw [confirm_eq]
  cases hr : s.root t g with
  | error e => exact .inl ⟨e, rfl⟩
  | ok r =>
      dsimp only
      split
      · next hstatus => exact .inr (.inl ⟨r, rfl, hstatus, rfl⟩)
      · have ha := admits_confirm hr
        obtain ⟨h, ht, hg⟩ := id ha
        have hgrows : s.state.Grows (s.state.after (.confirm t g)) := by
          simp only [State.after, ht]
          exact .confirm ht hg
        obtain herror | ⟨s', hs'⟩ := enter_writes ha hgrows
        · exact .inl herror
        · exact .inr (.inr ⟨s', ha, hs'⟩)

theorem replayFrom_writes (ho : s.Orderly) (t : TreeId) (root : Option Hash)
    (os : List Operation) : Relation.ReflTransGen Writes s (replayFrom t root os s).2 := by
  induction os generalizing s root with
  | nil => exact .refl
  | cons o os ih =>
      simp only [replayFrom, bind, Action.andThen, replayOne_eq]
      rcases carryOut_writes ho.state t o (some o.root) with ⟨e, heq⟩ | ⟨o', s', -, hw, -, heq⟩
      · rw [heq]
      · rw [heq]
        exact .head hw (ih (ho.writes hw) o.root)

theorem replay_writes (ho : s.Orderly) (t : TreeId) (os : List Operation) :
    Relation.ReflTransGen Writes s (replay t os s).2 := by
  simp only [replay, bind, Action.andThen, Action.read]
  cases s.latestRoot t with
  | error e => exact .refl
  | ok r => exact replayFrom_writes ho t r.node os

end Store

namespace Call

variable {s : Store} {c : Call}

/-- Whether a call makes at most one write. -/
def isWrite : Call → Bool
  | addTree _ | insert .. | delete .. | confirm .. => true
  | replay .. | audit | ask _ => false

/-- A call for one write makes it, or leaves the store as it is. -/
theorem perform_writes (ho : s.Orderly) (hc : c.isWrite = true) :
    (c.perform s).2 = s ∨ s.Writes (c.perform s).2 := by
  cases c with
  | addTree t =>
      simp only [perform, bind, pure, Action.andThen_done]
      rcases Store.addTree_writes t s with ⟨e, heq⟩ | ⟨s', -, hw, heq⟩
      · exact .inl (by rw [heq])
      · exact .inr (by rwa [heq])
  | insert t key value reference side =>
      simp only [perform, bind, pure, Action.andThen_done, Store.insert_eq]
      rcases Store.carryOut_writes ho.state t
        (.insertion ⟨default, key, value, reference, side, .pending⟩) none with
        ⟨e, heq⟩ | ⟨o', s', -, hw, -, heq⟩
      · exact .inl (by rw [heq])
      · exact .inr (by rwa [heq])
  | delete t key =>
      simp only [perform, bind, pure, Action.andThen_done]
      rcases Store.carryOut_writes ho.state t (.deletion ⟨none, key, .pending⟩) none with
        ⟨e, heq⟩ | ⟨o', s', -, hw, -, heq⟩
      · exact .inl (congrArg Prod.snd heq)
      · exact .inr ((congrArg Prod.snd heq).symm ▸ hw)
  | confirm t g =>
      simp only [perform, bind, pure, Action.andThen_done]
      rcases Store.confirm_writes t g s with ⟨e, heq⟩ | ⟨r, -, -, heq⟩ | ⟨s', -, -, hw, heq⟩
      · exact .inl (by rw [heq])
      · exact .inl (by rw [heq])
      · exact .inr (by rwa [heq])
  | replay t os | audit | ask q => cases hc

/-- But for trees that are taken out of service every call is a row of writes. -/
theorem exists_writes_perform (ho : s.Orderly) (c : Call) :
    ∃ s', Relation.ReflTransGen Store.Writes s s' ∧ (c.perform s).2.state = s'.state ∧
      (c.perform s).2.journal = s'.journal := by
  have hwrite (hc : c.isWrite = true) : Relation.ReflTransGen Store.Writes s (c.perform s).2 := by
    rcases perform_writes ho hc with heq | hw
    · rw [heq]
    · exact .single hw
  cases c with
  | addTree t => exact ⟨_, hwrite rfl, rfl, rfl⟩
  | insert t key value reference side => exact ⟨_, hwrite rfl, rfl, rfl⟩
  | delete t key => exact ⟨_, hwrite rfl, rfl, rfl⟩
  | confirm t g => exact ⟨_, hwrite rfl, rfl, rfl⟩
  | replay t os =>
      refine ⟨_, Store.replay_writes ho t os, ?_⟩
      simp only [perform, bind, pure, Action.andThen_done, and_self]
  | audit =>
      refine ⟨s, .refl, ?_⟩
      simp only [perform, bind, pure, Action.andThen_done, Store.audit]
      split
      · exact ⟨rfl, rfl⟩
      · split <;> exact ⟨rfl, rfl⟩
      · exact ⟨rfl, rfl⟩
  | ask q => exact ⟨s, .refl, rfl, rfl⟩

end Call

namespace Store

variable {s s' : Store}

theorem Orderly.congr (ho : s.Orderly) (hstate : s'.state = s.state)
    (hjournal : s'.journal = s.journal) : s'.Orderly :=
  ⟨hstate ▸ ho.state, by rw [hstate, hjournal]; exact ho.kept⟩

/-- A store that is kept in a file stays there, with the same codec. -/
theorem codec_journal_writesAll (hw : Relation.ReflTransGen Writes s s') :
    s'.journal.map Journal.codec = s.journal.map Journal.codec := by
  induction hw with
  | refl => rfl
  | tail _ hw ih =>
      rw [← ih]
      rcases hw.logged with ⟨hnone, hnone'⟩ | ⟨f, frame, -, -, hf, hf', -⟩
      · rw [hnone, hnone']
      · rw [hf, hf']
        rfl

/-- Every run goes through and leaves an orderly store, in a file if there was one. -/
theorem Orderly.exists_run (ho : s.Orderly) (steps : List Step) :
    ∃ s', run s steps = .ok s' ∧ s'.Orderly ∧
      s'.journal.map Journal.codec = s.journal.map Journal.codec := by
  induction steps generalizing s with
  | nil => exact ⟨s, rfl, ho, rfl⟩
  | cons step steps ih =>
      cases step with
      | call c =>
          obtain ⟨s₁, hw, hstate, hjournal⟩ := c.exists_writes_perform ho
          obtain ⟨s', hrun, ho', hfile⟩ := ih ((ho.writesAll hw).congr hstate hjournal)
          refine ⟨s', hrun, ho', ?_⟩
          rw [hfile, hjournal, codec_journal_writesAll hw]
      | reopen =>
          obtain ⟨s₁, hreopen, ho₁, -, hjournal⟩ := ho.exists_reopen
          obtain ⟨s', hrun, ho', hfile⟩ := ih ho₁
          refine ⟨s', ?_, ho', by rw [hfile, hjournal]⟩
          simp only [run, List.foldlM_cons, Step.after, hreopen, bind, Except.bind]
          exact hrun

theorem Orderly.of_run (ho : s.Orderly) {steps : List Step} (hrun : run s steps = .ok s') :
    s'.Orderly := by
  obtain ⟨s₁, hrun₁, ho₁, -⟩ := ho.exists_run steps
  rw [hrun, Except.ok.injEq] at hrun₁
  exact hrun₁ ▸ ho₁

theorem IsNew.orderly (hs : s.IsNew) : s.Orderly := by
  rcases hs with rfl | ⟨z, rfl⟩
  · exact .volatile
  · exact .create z

end Store

end MerkleStore
