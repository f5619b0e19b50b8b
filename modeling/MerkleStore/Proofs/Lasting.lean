import MerkleStore.Proofs.Locality
import MerkleStore.Proofs.Safety

/-!
# Generations last

Nothing that is done with a store takes a generation away or gives it another node, and
what has been confirmed stays confirmed; a tree starts empty (`State.Extends`). What is
done with one tree leaves all others as they are (`Call.getElem?_perform`).
-/

namespace MerkleStore

namespace State

variable {s s' s'' : State} {t : TreeId} {h : History}

/-- Every generation of one state is there in another one, where it may have been
confirmed, and the trees that are new there start empty. -/
structure Extends (s s' : State) : Prop where
  generations : ∀ (t : TreeId) (g : Nat) (r : Root), s.root? t g = some r →
    ∃ r', s'.root? t g = some r' ∧ r.Keeps r'
  starts : ∀ (t : TreeId) (r : Root), s.root? t 0 = none → s'.root? t 0 = some r → r.node = none

theorem Extends.refl (s : State) : s.Extends s where
  generations := fun _ _ r hr => ⟨r, hr, .inl rfl⟩
  starts := by
    intro t r hnone hr
    rw [hnone] at hr
    cases hr

theorem Extends.trans (h : s.Extends s') (h' : s'.Extends s'') : s.Extends s'' where
  generations := by
    intro t g r hr
    obtain ⟨r', hr', hkeeps⟩ := h.generations t g r hr
    obtain ⟨r'', hr'', hkeeps'⟩ := h'.generations t g r' hr'
    exact ⟨r'', hr'', hkeeps.trans hkeeps'⟩
  starts := by
    intro t r hnone hr
    cases hr' : s'.root? t 0 with
    | none => exact h'.starts t r hr' hr
    | some r' =>
        obtain ⟨r'', hr'', hkeeps⟩ := h'.generations t 0 r' hr'
        rw [hr, Option.some.injEq] at hr''
        rw [hr'', hkeeps.node]
        exact h.starts t r' hnone hr'

theorem root?_setTree (s : State) (t : TreeId) (h : History) (t' : TreeId) (g : Nat) :
    (s.setTree t h).root? t' g = if t = t' then h.roots[g]? else s.root? t' g := by
  rw [root?, getElem?_setTree]
  split <;> rfl

/-- A state is extended where a tree gets a history with more generations. -/
theorem extends_setTree {nodes : NodeMap} {h' : History} (ht : s.trees[t]? = some h)
    (hroots : ∀ (g : Nat) (r : Root), h.roots[g]? = some r →
      ∃ r', h'.roots[g]? = some r' ∧ r.Keeps r') :
    s.Extends ({ s with nodes }.setTree t h') where
  generations := by
    intro t' g r hr
    rw [root?_setTree]
    split
    · next heq =>
        rw [← heq, root?_of_tree ht] at hr
        exact hroots g r hr
    · exact ⟨r, hr, .inl rfl⟩
  starts := by
    intro t' r hnone hr
    rw [root?_setTree] at hr
    split at hr
    · next heq =>
        -- the tree has had a first generation before
        rw [← heq, root?_of_tree ht, List.getElem?_eq_none_iff, Nat.le_zero,
          List.length_eq_zero_iff] at hnone
        exact absurd hnone h.roots_ne_nil
    · exact absurd (hnone.symm.trans hr) (by simp)

theorem Grows.extends (hg : s.Grows s') : s.Extends s' := by
  cases hg with
  | @start t ht =>
      have hnone : ∀ g, s.root? t g = none := fun g => by rw [root?, ht]; rfl
      constructor
      · intro t' g r hr
        rw [root?_setTree, if_neg (by rintro rfl; rw [hnone] at hr; cases hr)]
        exact ⟨r, hr, .inl rfl⟩
      · intro t' r hnone' hr
        rw [root?_setTree] at hr
        split at hr
        · cases hr
          rfl
        · exact absurd (hnone'.symm.trans hr) (by simp)
  | log hl =>
      cases hl with
      | @intro h ns u ht hgrounded hroot hstatus =>
          refine extends_setTree ht fun g r hr => ⟨r, ?_, .inl rfl⟩
          exact (h.appended_log u rfl).getElem?_roots_of_some hr
  | @confirm t h g ht hg =>
      refine extends_setTree ht fun i r hr => ?_
      rw [(h.confirmed_updateStatus g).roots, hr]
      refine ⟨_, rfl, ?_⟩
      split
      · exact .inr rfl
      · exact .inl rfl

theorem Alike.root?_eq {s s' : State} (ha : s.Alike s') (t : TreeId) (g : Nat) :
    s.root? t g = s'.root? t g := by
  rw [root?, root?]
  cases ht : s.trees[t]? with
  | none => rw [ha.getElem?_eq_none ht]
  | some h =>
      obtain ⟨h', ht', hr, -⟩ := ha.exists_getElem? ht
      rw [ht', Option.bind_some, Option.bind_some, hr]

theorem Alike.extends {s s' : State} (ha : s.Alike s') : s.Extends s' where
  generations := fun t g r hr => ⟨r, ha.root?_eq t g ▸ hr, .inl rfl⟩
  starts := by
    intro t r hnone hr
    rw [ha.root?_eq t 0, hr] at hnone
    cases hnone

end State

namespace Store

variable {s s' : Store} {t : TreeId}

theorem extends_of_writes (hw : Relation.ReflTransGen Writes s s') : s.state.Extends s'.state := by
  induction hw with
  | refl => exact .refl _
  | tail _ hw ih => exact ih.trans hw.grows.extends

/-- A step keeps every generation. -/
theorem Orderly.extends_step (ho : s.Orderly) {step : Step} (hstep : step.after s = .ok s') :
    s.state.Extends s'.state ∧ s'.Orderly := by
  cases step with
  | call c =>
      obtain ⟨s₁, hw, hstate, hjournal⟩ := c.exists_writes_perform ho
      cases hstep
      exact ⟨hstate ▸ extends_of_writes hw, (ho.writesAll hw).congr hstate hjournal⟩
  | reopen =>
      obtain ⟨s₁, hreopen, ho₁, halike, -⟩ := ho.exists_reopen
      rw [Step.after, hreopen, Except.ok.injEq] at hstep
      exact hstep ▸ ⟨halike.symm.extends, ho₁⟩

/-- A run keeps every generation. -/
theorem Orderly.extends_run (ho : s.Orderly) {steps : List Step} (hrun : run s steps = .ok s') :
    s.state.Extends s'.state := by
  induction steps generalizing s with
  | nil =>
      cases hrun
      exact .refl _
  | cons step steps ih =>
      rw [run, List.foldlM_cons] at hrun
      obtain ⟨s₁, hstep, hrest⟩ := bind_eq_ok.mp hrun
      obtain ⟨hextends, ho₁⟩ := ho.extends_step hstep
      exact hextends.trans (ih ho₁ hrest)

theorem IsNew.root?_eq_none (hs : s.IsNew) (t : TreeId) (g : Nat) : s.state.root? t g = none := by
  rcases hs with rfl | ⟨z, rfl⟩ <;> simp [State.root?, volatile, create, State.empty]

/-- Generation 0 of a tree is empty, after every run. -/
theorem IsNew.node_start (hs : s.IsNew) {steps : List Step} (hrun : run s steps = .ok s')
    {r : Root} (hr : s'.state.root? t 0 = some r) : r.node = none :=
  (hs.orderly.extends_run hrun).starts t r (hs.root?_eq_none t 0) hr

/-- A root is given for a generation that is there, in a tree that is in service. -/
theorem root_eq_ok_iff {g : Nat} {r : Root} :
    s.root t g = .ok r ↔ s.isOutOfService t = false ∧ s.state.root? t g = some r := by
  cases hs : s.servedTree t with
  | ok h =>
      obtain ⟨hserved, ht⟩ := servedTree_eq_ok.mp hs
      rw [State.root?_of_tree ht, root, hs]
      cases hr : h.roots[g]? <;> simp [hserved, hr, bind, Except.bind, pure, Except.pure]
  | error e =>
      have hnot : ¬ (s.isOutOfService t = false ∧ s.state.root? t g = some r) := by
        rintro ⟨hserved, hr⟩
        obtain ⟨h, ht, -⟩ := Option.bind_eq_some_iff.mp hr
        rw [servedTree_eq_ok.mpr ⟨hserved, ht⟩] at hs
        cases hs
      simp only [root, hs, bind, Except.bind, reduceCtorEq, false_iff]
      exact hnot

end Store

/-! ## Other trees -/

theorem Store.getElem?_carryOut {s : Store} {t t' : TreeId} (ho : s.state.Orderly) (hne : t' ≠ t)
    (o : Operation) :
    (Store.carryOut t' o none s).2.state.trees[t]? = s.state.trees[t]? := by
  rcases Store.carryOut_writes ho t' o none with ⟨e, heq⟩ | ⟨o', s', hl, -, -, heq⟩
  · rw [heq]
  · rw [heq]
    exact (hl.appends (rfl : o'.root = o'.root)).others t hne.symm

/-- A call leaves all trees but its own as they are. -/
theorem Call.getElem?_perform {s : Store} {t : TreeId} (ho : s.Orderly) (c : Call)
    (hc : c.tree? ≠ some t) : (c.perform s).2.state.trees[t]? = s.state.trees[t]? := by
  have hne {t' : TreeId} (h : c.tree? = some t') : t' ≠ t := by
    rintro rfl
    exact hc h
  cases c with
  | addTree t' =>
      simp only [perform, bind, pure, Action.andThen_done]
      rcases Store.addTree_writes t' s with ⟨e, heq⟩ | ⟨s', hstate, -, heq⟩
      · rw [heq]
      · rw [heq, hstate]
        exact (State.getElem?_after ..).trans (if_neg (hne rfl))
  | insert t' key value reference side =>
      simp only [perform, bind, pure, Action.andThen_done, Store.insert_eq]
      exact Store.getElem?_carryOut ho.state (hne rfl) _
  | delete t' key =>
      simp only [perform, bind, pure, Action.andThen_done]
      exact Store.getElem?_carryOut ho.state (hne rfl) (.deletion ⟨none, key, .pending⟩)
  | confirm t' g =>
      simp only [perform, bind, pure, Action.andThen_done]
      rcases Store.confirm_writes t' g s with ⟨e, heq⟩ | ⟨r, -, -, heq⟩ | ⟨s', -, hstate, -, heq⟩
      · rw [heq]
      · rw [heq]
      · rw [heq, hstate]
        exact (State.getElem?_after ..).trans (if_neg (hne rfl))
  | replay t' os =>
      simp only [perform, bind, pure, Action.andThen_done]
      cases hr : s.latestRoot t' with
      | error e => simp [Store.replay, bind, Action.andThen, Action.read, hr]
      | ok r =>
          rcases Store.replay_cases ho hr os with
            ⟨e, s', i, heq, hreplayed⟩ | ⟨s', heq, hreplayed⟩ <;>
            rw [heq] <;> exact hreplayed.appends.others t (hne rfl).symm
  | audit =>
      simp only [perform, bind, pure, Action.andThen_done, Store.audit]
      split
      · rfl
      · split <;> rfl
      · rfl
  | ask q => rfl

end MerkleStore
