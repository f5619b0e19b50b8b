import MerkleStore.Proofs.Frozen
import MerkleStore.Proofs.Repeating

/-!
# Writes that fail

A write looks at the store, works out what it is going to do, and commits it at its end. So
whatever it fails for, it has done nothing (`Action.Atomic`): of the ways a commit can go none
changes part of the store, since records that have been checked can be applied. Some of the
reasons are given by name (`Store.Rejects`). A repetition of several operations is not a write in
this sense; it stops at the first one that fails and leaves those before it.
-/

namespace MerkleStore

/-! ## Actions that fail as a whole -/

namespace Action

variable {α β : Type} {x : Action α}

/-- An action that fails leaves the store as it was. -/
def Atomic (x : Action α) : Prop := ∀ s e, (x s).1 = .error e → (x s).2 = s

theorem Atomic.done (a : α) : Atomic (done a) := fun _ _ _ => rfl

theorem Atomic.fail (e : Error) : Atomic (fail e : Action α) := fun _ _ _ => rfl

/-- What is done after looking at the store is all that is done. -/
theorem Atomic.read_andThen (f : Store → Except Error α) {next : α → Action β}
    (hnext : ∀ a, Atomic (next a)) : Atomic ((Action.read f).andThen next) := by
  intro s e
  simp only [Action.andThen, Action.read]
  cases f s with
  | error e' => exact fun _ => rfl
  | ok a => exact hnext a s e

theorem Atomic.andThen_done (hx : Atomic x) (f : α → β) :
    Atomic (x.andThen fun a => Action.done (f a)) := by
  intro s e h
  rw [Action.andThen_done] at h ⊢
  cases hresult : (x s).1 with
  | error e' => exact hx s e' hresult
  | ok a =>
      rw [hresult] at h
      cases h

end Action

namespace Store

theorem atomic_commit (tx : Transaction) : (commit tx).Atomic := by
  intro s e h
  rcases commit_cases tx s with ⟨e', heq⟩ | ⟨-, heq⟩ | ⟨journal, state, -, -, -, heq⟩
  · rw [heq]
  · rw [heq]
  · rw [heq] at h
    cases h

theorem atomic_commitDraft (t : TreeId) (d : Draft) (expected : Option (Option Hash)) :
    (commitDraft t d expected).Atomic := by
  cases expected with
  | none => exact atomic_commit d.transaction
  | some root =>
      rw [commitDraft]
      split
      · exact atomic_commit d.transaction
      · exact .fail _

theorem atomic_addTree (t : TreeId) : (addTree t).Atomic := by
  intro s e h
  rw [addTree] at h ⊢
  split
  · rfl
  · next hnew =>
      rw [if_neg hnew] at h
      exact atomic_commit _ s e h

theorem atomic_insertToward (t : TreeId) (key value : Bytes) (reference : Option Hash)
    (side : Option Side) (expected : Option (Option Hash)) :
    (insertToward t key value reference side expected).Atomic :=
  .read_andThen _ fun _ => .read_andThen _ fun d => (atomic_commitDraft t d expected).andThen_done _

theorem atomic_deleteToward (t : TreeId) (key : Bytes) (expected : Option (Option Hash)) :
    (deleteToward t key expected).Atomic :=
  .read_andThen _ fun _ => .read_andThen _ fun d => atomic_commitDraft t d expected

theorem atomic_confirm (t : TreeId) (g : Nat) : (confirm t g).Atomic := by
  refine .read_andThen _ fun r => ?_
  split
  · exact .done ()
  · exact atomic_commit _

end Store

theorem Call.atomic_perform {c : Call} (hc : c.isWrite = true) : c.perform.Atomic := by
  cases c with
  | addTree t => exact (Store.atomic_addTree t).andThen_done _
  | insert t key value reference side =>
      exact (Store.atomic_insertToward t key value reference side none).andThen_done _
  | delete t key => exact (Store.atomic_deleteToward t key none).andThen_done _
  | confirm t g => exact (Store.atomic_confirm t g).andThen_done _
  | replay t os | audit | ask q => cases hc

/-! ## What writes are rejected for -/

namespace State

variable {s : State} {t : TreeId} {h : History} {reference : Option Hash} {side : Option Side}
  {e : Error}

/-- The arguments for which there is no place for a new leaf, each with its error. -/
inductive Misplaces (s : State) (t : TreeId) (h : History) :
    Option Hash → Option Side → Error → Prop
  | surplusReference (reference : Hash) (side : Option Side) (hroot : h.latest.node = none) :
      Misplaces s t h (some reference) side (.notFound (.referenceOfEmpty reference t))
  | missingReference (side : Option Side) (hroot : h.latest.node ≠ none) :
      Misplaces s t h none side (.invalidArgument .referenceRequired)
  | missingSide (reference : Hash) (hroot : h.latest.node ≠ none) :
      Misplaces s t h (some reference) none (.invalidArgument .sideRequired)
  | unknownReference (reference : Hash) (side : Side) (hroot : h.latest.node ≠ none)
      (hnowhere : s.ancestry h reference = none) :
      Misplaces s t h (some reference) (some side) (.notFound (.reference reference t))

/-- These are the arguments that give no place. -/
theorem placeFor_eq_error_iff :
    s.placeFor t h reference side = .error e ↔ s.Misplaces t h reference side e := by
  constructor
  · intro he
    unfold placeFor at he
    split at he
    · cases he
    · next hroot =>
        cases he
        exact .surplusReference _ side hroot
    · next hroot =>
        cases he
        exact .missingReference side (by simp [hroot])
    · next hroot =>
        have hne : h.latest.node ≠ none := by simp [hroot]
        split at he
        · cases he
          exact .missingSide _ hne
        · split at he
          · next hnowhere =>
              cases he
              exact .unknownReference _ _ hne hnowhere
          · cases he
  · intro hm
    cases hm with
    | surplusReference reference side hroot => simp only [placeFor, hroot]
    | missingReference side hroot =>
        obtain ⟨root, hroot⟩ := Option.ne_none_iff_exists'.mp hroot
        simp only [placeFor, hroot]
    | missingSide reference hroot =>
        obtain ⟨root, hroot⟩ := Option.ne_none_iff_exists'.mp hroot
        simp only [placeFor, hroot]
    | unknownReference reference side hroot hnowhere =>
        obtain ⟨root, hroot⟩ := Option.ne_none_iff_exists'.mp hroot
        simp only [placeFor, hroot, hnowhere]

end State

namespace Store

variable {s : Store} {c : Call} {e : Error} {t : TreeId} {h : History} {key value : Bytes}
  {reference : Option Hash} {side : Option Side} {g : Nat} {r : Root}

/-- What writes to a store are rejected for, each with its error. -/
inductive Rejects (s : Store) : Call → Error → Prop
  | treeExists {t : TreeId} (hknown : s.hasTree t = true) :
      Rejects s (.addTree t) (.treeExists t)
  | outOfService {c : Call} {t : TreeId} (hc : c.named? = some t) (hguard : c.isGuarded = true)
      (hout : s.isOutOfService t = true) : Rejects s c (.quarantined t)
  | unknownTree {c : Call} {t : TreeId} (hwrite : c.isWrite = true) (hc : c.named? = some t)
      (hguard : c.isGuarded = true) (hin : s.isOutOfService t = false)
      (hunknown : s.state.trees[t]? = none) : Rejects s c (.notFound (.tree t))
  | duplicateKey {t : TreeId} {h : History} {key value : Bytes} {reference : Option Hash}
      {side : Option Side} (hs : s.servedTree t = .ok h)
      (hkey : h.index.keys.contains key = true) :
      Rejects s (.insert t key value reference side) (.duplicateKey key)
  | misplaced {t : TreeId} {h : History} {key value : Bytes} {reference : Option Hash}
      {side : Option Side} {e : Error} (hs : s.servedTree t = .ok h)
      (hkey : h.index.keys.contains key = false) (hplace : s.state.Misplaces t h reference side e) :
      Rejects s (.insert t key value reference side) e
  | missingKey {t : TreeId} {h : History} {key : Bytes} (hs : s.servedTree t = .ok h)
      (hkey : h.index.keys[key]? = none) : Rejects s (.delete t key) (.notFound (.key key t))
  | unknownGeneration {t : TreeId} {h : History} {g : Nat} (hs : s.servedTree t = .ok h)
      (hg : h.roots[g]? = none) : Rejects s (.confirm t g) (.notFound (.generation g t))

theorem fst_perform_insert (hin : s.isOutOfService t = false)
    (hd : s.state.draftInsertion t key value reference side = .error e) :
    ((Call.insert t key value reference side).perform s).1 = .error e := by
  simp only [Call.perform, insert, insertToward, requireInService, hin, hd, bind, Action.andThen,
    Action.read, Bool.false_eq_true, if_false]

theorem fst_perform_delete (hin : s.isOutOfService t = false)
    (hd : s.state.draftDeletion t key = .error e) :
    ((Call.delete t key).perform s).1 = .error e := by
  simp only [Call.perform, delete, deleteToward, requireInService, hin, hd, bind, Action.andThen,
    Action.read, Bool.false_eq_true, if_false]

theorem fst_perform_confirm (hr : s.root t g = .error e) :
    ((Call.confirm t g).perform s).1 = .error e := by
  simp only [Call.perform, confirm, hr, bind, Action.andThen, Action.read]

/-- A write that is rejected fails with the error it is rejected with. -/
theorem Rejects.fst_perform (hr : s.Rejects c e) : (c.perform s).1 = .error e := by
  cases hr with
  | @treeExists t hknown =>
      simp only [Call.perform, addTree, hknown, bind, Action.andThen, if_true]
  | outOfService hc hguard hout => rw [perform_outOfService hout hc hguard]
  | @unknownTree _ t hwrite hc hguard hin hunknown =>
      have htree : s.state.tree t = .error (.notFound (.tree t)) := by
        rw [State.tree, hunknown]
      cases c with
      | addTree => cases hguard
      | insert u key value reference side =>
          cases hc
          refine fst_perform_insert hin ?_
          rw [State.draftInsertion, htree]
          rfl
      | delete u key =>
          cases hc
          refine fst_perform_delete hin ?_
          rw [State.draftDeletion, htree]
          rfl
      | confirm u g =>
          cases hc
          refine fst_perform_confirm ?_
          simp only [root, servedTree, requireInService, hin, htree, Bool.false_eq_true, if_false]
          rfl
      | replay | audit | ask => cases hwrite
  | duplicateKey hs hkey =>
      obtain ⟨hin, ht⟩ := servedTree_eq_ok.mp hs
      refine fst_perform_insert hin ?_
      rw [State.draftInsertion, State.tree_eq_ok.mpr ht]
      simp only [bind, Except.bind, hkey, if_true]
      rfl
  | misplaced hs hkey hplace =>
      obtain ⟨hin, ht⟩ := servedTree_eq_ok.mp hs
      refine fst_perform_insert hin ?_
      rw [State.draftInsertion, State.tree_eq_ok.mpr ht]
      simp only [bind, Except.bind, hkey, State.placeFor_eq_error_iff.mpr hplace,
        Bool.false_eq_true, if_false]
  | missingKey hs hkey =>
      obtain ⟨hin, ht⟩ := servedTree_eq_ok.mp hs
      refine fst_perform_delete hin ?_
      rw [State.draftDeletion, State.tree_eq_ok.mpr ht]
      simp only [bind, Except.bind, hkey]
      rfl
  | unknownGeneration hs hg =>
      refine fst_perform_confirm ?_
      simp only [root, hs, hg, bind, Except.bind]
      rfl

end Store

/-! ## The main statement -/

/-- A write that fails, in whatever state and for whatever reason, leaves the store and its file
as they are, and so the results of all that comes later. Nor does a generation leave a trace that
is confirmed once more, which succeeds. -/
theorem failed_write_leaves_no_trace (s : Store) :
    (∀ c : Call, c.isWrite = true → ∀ e, (c.perform s).1 = .error e →
      (c.perform s).2 = s ∧
        (∀ steps, results (c.perform s).2 steps = results s steps) ∧
        ∀ jobs, Job.results (c.perform s).2 jobs = Job.results s jobs) ∧
      (∀ c e, s.Rejects c e → c.isWrite = true → c.perform s = (.error e, s)) ∧
      ∀ t h g r, s.servedTree t = .ok h → h.roots[g]? = some r → r.status = .committed →
        (Call.confirm t g).perform s = (.ok .done, s) := by
  refine ⟨fun c hc e he => ?_, fun c e hr hc => ?_, fun t h g r hs hg hstatus => ?_⟩
  · have hsame := Call.atomic_perform hc s e he
    exact ⟨hsame, fun _ => by rw [hsame], fun _ => by rw [hsame]⟩
  · have he := hr.fst_perform
    exact Prod.ext he (Call.atomic_perform hc s e he)
  · have hconfirm := Store.confirm_eq t g s
    rw [Store.root_of_servedTree hs hg] at hconfirm
    simp only [hstatus, if_true] at hconfirm
    simp only [Call.perform, bind, pure, Action.andThen_done, hconfirm]
    rfl

/-- A key is rejected that is there, and a confirmed generation is confirmed once more. -/
theorem failed_writes_of_sampleSteps :
    let steps := sampleSteps.take 2 ++ [.call (.confirm sampleTree 1)]
    ∃ s h r, run (.create sampleCodec) steps = .ok s ∧ s.servedTree sampleTree = .ok h ∧
      h.index.keys.contains [1] = true ∧ h.roots[1]? = some r ∧ r.status = .committed ∧
      (Call.insert sampleTree [1] [11] none none).perform s = (.error (.duplicateKey [1]), s) ∧
      (Call.confirm sampleTree 1).perform s = (.ok .done, s) := by
  intro steps
  have heval : (do
      let s ← (run (.create sampleCodec) steps).toOption
      let h ← (s.servedTree sampleTree).toOption
      let r ← h.roots[1]?
      return (h.index.keys.contains [1], r.status)) = some (true, .committed) := by
    decide +kernel
  simp only [Option.bind_eq_bind, Option.bind_eq_some_iff, pure, Option.some.injEq,
    Prod.mk.injEq] at heval
  obtain ⟨s, hrun, h, hs, r, hr, hkey, hstatus⟩ := heval
  have hserved := eq_ok_of_toOption hs
  obtain ⟨-, hrejected, hconfirm⟩ := failed_write_leaves_no_trace s
  exact ⟨s, h, r, eq_ok_of_toOption hrun, hserved, hkey, hr, hstatus,
    hrejected _ _ (.duplicateKey hserved hkey) rfl, hconfirm _ h 1 r hserved hr hstatus⟩

end MerkleStore
