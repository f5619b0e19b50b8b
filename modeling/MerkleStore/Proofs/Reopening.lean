import MerkleStore.Proofs.Locality

/-!
# Opening a file again

A store in a file and one in memory that have the same nodes, roots and operations
(`Store.Twins`) may have different indexes: one of them was kept from write to write,
with what has become of no use in it, the other one was made again from the file. Twins
have every tree in common, and so they agree on every call (`Store.Twins.agree_perform`).
`results_eq_volatile_of_run` says that nobody notices how often the file was closed and
opened. Only a frame that the journal refuses makes a difference.
-/

namespace MerkleStore

/-- Whether a step is a call. -/
def Step.isCall : Step → Bool
  | call _ => true
  | reopen => false

namespace Store

variable {a a' b b' : Store} {U : Set Node} {evs : List Event}

/-- An intact store and an intact one in memory that differ in their indexes at most. -/
structure Twins (U : Set Node) (a b : Store) : Prop where
  left : a.Intact U
  right : b.Intact U
  alike : a.state.Alike b.state
  inMemory : b.journal = none

theorem Twins.start (z : Codec) (U : Set Node) : (create z).Twins U volatile :=
  ⟨.create z U, .volatile U, .refl _, rfl⟩

/-- Twins have every tree in common. -/
theorem Twins.sameAt (hab : a.Twins U b) (t : TreeId) : a.SameAt U t b :=
  ⟨hab.left, hab.right, hab.alike.trees t⟩

theorem Twins.treeIds_eq (hab : a.Twins U b) : a.treeIds = b.treeIds := by
  have hwritten : a.state.trees.map (fun _ => History.written) =
      b.state.trees.map fun _ => History.written :=
    Std.ExtTreeMap.ext_getElem? fun t => by simpa using hab.alike.trees t
  have hkeys := congrArg Std.ExtTreeMap.keys hwritten
  rwa [Std.ExtTreeMap.keys_map, Std.ExtTreeMap.keys_map] at hkeys

/-- Twins answer every question in the same way. -/
theorem Twins.answer_eq (hab : a.Twins U b) (hU : Set.InjOn Node.hash U) (q : Question) :
    q.answer a = q.answer b := by
  cases hq : q.tree? with
  | some t => exact (hab.sameAt t).answer_eq hU hq
  | none =>
      have hnodes := hab.alike.nodes
      cases q with
      | treeIds => simp only [Question.answer, hab.treeIds_eq]
      | numNodes => simp only [Question.answer, numNodes, hnodes]
      | node h => simp only [Question.answer, node, State.node, hnodes]
      | preorder h => simp only [Question.answer, preorder, hnodes]
      | _ => cases hq

/-- Alike states stay alike when the same events happen to both. -/
theorem Entered.alike (ha : Entered a evs a') (hb : Entered b evs b')
    (hab : a.state.Alike b.state) : a'.state.Alike b'.state := by
  induction ha generalizing b with
  | nil a =>
      cases hb
      exact hab
  | cons _ hev _ ih =>
      cases hb with
      | cons _ hev' hb' =>
          refine ih hb' ?_
          rw [state_of_enter hev, state_of_enter hev']
          exact hab.after

/-- Twins agree on every call, unless the journal of the first one refuses a frame. -/
theorem Twins.agree_perform (hab : a.Twins U b) (hU : Set.InjOn Node.hash U) (c : Call)
    (hn : ∀ n ∈ c.nodes a, n ∈ U) :
    isRefusal (c.perform a).1 = true ∨
      (c.perform a).1 = (c.perform b).1 ∧ (c.perform a).2.Twins U (c.perform b).2 := by
  cases hc : c.tree? with
  | some t =>
      have hnone {P : Prop} (h : ∃ f, b.journal = some f) : P := by
        obtain ⟨f, hf⟩ := h
        rw [hab.inMemory] at hf
        cases hf
      cases (hab.sameAt t).agree_perform hU hc hn with
      | refusedLeft h => exact .inl h.1
      | refusedRight h => exact hnone h.2
      | alike evs result tree made left right =>
          refine .inr ⟨result, hab.left.entered hU made left, hab.right.entered hU made right,
            left.alike right hab.alike, ?_⟩
          by_contra hjournal
          exact hnone (right.journal (Option.ne_none_iff_exists'.mp hjournal))
  | none =>
      cases c with
      | audit =>
          have hstays {s : Store} (hs : s.Intact U) : Call.audit.perform s = (.ok .done, s) := by
            simp only [Call.perform, bind, pure, Action.andThen_done, hs.audit, Except.map]
          rw [hstays hab.left, hstays hab.right]
          exact .inr ⟨rfl, hab⟩
      | ask q => exact .inr ⟨hab.answer_eq hU q, hab⟩
      | _ => cases hc

/-- A twin in memory gives what the store in a file gives, openings left out. -/
theorem Twins.results_eq (hab : a.Twins U b) (hU : Set.InjOn Node.hash U) {steps : List Step}
    (hn : ∀ n ∈ contents a steps, n ∈ U) (hf : ∀ r ∈ results a steps, isRefusal r = false) :
    results a steps = results b (steps.filter Step.isCall) := by
  induction steps generalizing a b with
  | nil => rfl
  | cons step steps ih =>
      cases step with
      | call c =>
          simp only [contents, List.mem_append] at hn
          simp only [results, List.mem_cons, forall_eq_or_imp] at hf
          rcases hab.agree_perform hU c fun n h => hn n (.inl h) with hrefused | ⟨heq, htwins⟩
          · rw [hf.1] at hrefused
            cases hrefused
          · rw [List.filter_cons_of_pos rfl, results, results, heq,
              ih htwins (fun n h => hn n (.inr h)) hf.2]
      | reopen =>
          -- only the store in the file takes this step
          obtain ⟨a', hreopen, ha', halike, -⟩ := hab.left.exists_reopen
          simp only [contents, hreopen] at hn
          simp only [results, hreopen] at hf ⊢
          rw [List.filter_cons_of_neg (by simp [Step.isCall])]
          exact ih ⟨ha', hab.right, halike.trans hab.alike, hab.inMemory⟩ hn hf

end Store

/-- Closing a store and opening its file again, at any points of a run and any number of
times, succeeds, and every call gives what it gives on a store in memory that is never
closed, whatever the codec is. The assumption is that the journal refuses no frame of the
run: none is too large and no number in one is too large for its width. -/
theorem results_eq_volatile_of_run {z : Codec} {steps : List Step}
    (hc : CollisionFree (contents (.create z) steps))
    (hf : ∀ r ∈ results (.create z) steps, isRefusal r = false) :
    (∃ s, run (.create z) steps = .ok s) ∧
      results (.create z) steps = results .volatile (steps.filter Step.isCall) := by
  have hU := hc.injOn_hash fun n hn => hash_of_mem_contents hn
  obtain ⟨s, hrun, -⟩ := (Store.Intact.create z _).exists_run hU steps fun n hn => hn
  exact ⟨⟨s, hrun⟩, (Store.Twins.start z _).results_eq hU (fun n hn => hn) hf⟩

/-- The small run gives in memory what it gives on a file. -/
theorem results_eq_volatile_of_sampleSteps :
    CollisionFree (contents (.create sampleCodec) sampleSteps) ∧
      (∀ r ∈ results (.create sampleCodec) sampleSteps, isRefusal r = false) ∧
      results (.create sampleCodec) sampleSteps =
        results .volatile (sampleSteps.filter Step.isCall) := by
  have hc : CollisionFree (contents (.create sampleCodec) sampleSteps) := by decide +kernel
  have hf : ∀ r ∈ results (.create sampleCodec) sampleSteps, isRefusal r = false := by
    decide +kernel
  exact ⟨hc, hf, (results_eq_volatile_of_run hc hf).2⟩

end MerkleStore
