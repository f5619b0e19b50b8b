import MerkleStore.Proofs.Lasting
import MerkleStore.Proofs.VersionedMap

/-!
# Calls on different trees

What a call does to its tree is decided by this tree alone (`Store.SameAt.agree_perform`), and it
leaves all other trees as they are (`Store.sameAt_perform`). So calls on two trees are the same
events in either order, and `commutes_of_run` says that they can change places. The nodes
they make go into one map, where those that both of them make are kept once: which one
comes first makes no difference, since nodes with one hash are equal
(`NodeMap.addAll_congr`).
-/

namespace MerkleStore

/-- Without a collision it makes no difference in which order, and how often, nodes are added. -/
theorem NodeMap.addAll_congr {nodes : NodeMap} {ns ms : List Node} {U : Set Node}
    (hU : Set.InjOn Node.hash U) (hs : nodes.Sound) (hw : nodes.Within U) (hns : ∀ n ∈ ns, n ∈ U)
    (hsame : ∀ n, n ∈ ns ↔ n ∈ ms) : nodes.addAll ns = nodes.addAll ms := by
  have hms : ∀ n ∈ ms, n ∈ U := fun n hn => hns n ((hsame n).mpr hn)
  have hkept {ns ms : List Node} (hms : ∀ n ∈ ms, n ∈ U) (hsub : ∀ n ∈ ns, n ∈ ms) {k : Hash}
      {n : Node} (hn : (nodes.addAll ns)[k]? = some n) : (nodes.addAll ms)[k]? = some n := by
    rcases mem_of_getElem?_addAll hn with hold | ⟨hmem, rfl⟩
    · exact getElem?_addAll_of_some hold
    · exact mem_stored_addAll hU hs hw hms (hsub n hmem)
  refine Std.ExtTreeMap.ext_getElem? fun k => Option.ext fun n => ?_
  exact ⟨hkept hms fun n => (hsame n).mp, hkept hns fun n => (hsame n).mpr⟩

namespace Store

variable {s s₁ s₂ s₃ s₄ : Store} {A B t : TreeId} {U : Set Node} {evs evs' : List Event}
  {c d : Call}

/-- Events of two trees lead to one state, whichever of them come first. -/
theorem Entered.state_comm (hs : s.Intact U) (hU : Set.InjOn Node.hash U) (hne : A ≠ B)
    (hA : ∀ ev ∈ evs, ev.tree = A) (hB : ∀ ev ∈ evs', ev.tree = B)
    (hmade : ∀ ev ∈ evs, ∀ n ∈ ev.made, n ∈ U) (hmade' : ∀ ev ∈ evs', ∀ n ∈ ev.made, n ∈ U)
    (h₁ : Entered s evs s₁) (h₂ : Entered s₁ evs' s₂) (h₃ : Entered s evs' s₃)
    (h₄ : Entered s₃ evs s₄) : s₂.state = s₄.state := by
  refine State.ext_trees ?_ fun t => ?_
  · rw [h₂.nodes, h₁.nodes, h₄.nodes, h₃.nodes, ← NodeMap.addAll_append, ← NodeMap.addAll_append]
    refine NodeMap.addAll_congr hU hs.sound.nodes hs.within (fun n hn => ?_) fun n => ?_
    · rcases List.mem_append.mp hn with hn | hn
      · obtain ⟨ev, hev, hn⟩ := List.mem_flatMap.mp hn
        exact hmade ev hev n hn
      · obtain ⟨ev, hev, hn⟩ := List.mem_flatMap.mp hn
        exact hmade' ev hev n hn
    · rw [List.mem_append, List.mem_append, or_comm]
  · by_cases ht : t = A
    · subst ht
      rw [h₂.getElem?_other hB hne.symm, h₁.getElem?_own hA, h₄.getElem?_own hA,
        h₃.getElem?_other hB hne.symm]
    · rw [h₄.getElem?_other hA (Ne.symm ht), h₂.getElem?_trees, h₃.getElem?_trees,
        h₁.getElem?_other hA (Ne.symm ht)]

/-- A call leaves all trees but its own as they are. -/
theorem sameAt_perform (hs : s.Intact U) (ho : s.Orderly) (hU : Set.InjOn Node.hash U)
    (hn : ∀ n ∈ c.nodes s, n ∈ U) (hc : c.tree? ≠ some t) : s.SameAt U t (c.perform s).2 where
  left := hs
  right := (c.comes_perform hs hU hn).intact hs hU
  written := by rw [c.getElem?_perform ho hc]

/-- Two calls can change places: each of them gives the same before and after the other one, and
they lead to the same state. -/
structure Commutes (s : Store) (c d : Call) : Prop where
  first : (c.perform s).1 = (c.perform (d.perform s).2).1
  second : (d.perform (c.perform s).2).1 = (d.perform s).1
  state : (d.perform (c.perform s).2).2.state = (c.perform (d.perform s).2).2.state
  quarantined : (d.perform (c.perform s).2).2.quarantined =
    (c.perform (d.perform s).2).2.quarantined

/-- The journal refuses a frame of one of two calls, in one of the orders. -/
def RefusesOne (s : Store) (c d : Call) : Prop :=
  s.Refuses c.perform ∨ (d.perform s).2.Refuses c.perform ∨
    (c.perform s).2.Refuses d.perform ∨ s.Refuses d.perform

/-- Calls on two trees of an intact store can change places. -/
theorem commutes_of_ne (hs : s.Intact U) (ho : s.Orderly) (hU : Set.InjOn Node.hash U)
    (hA : c.tree? = some A) (hB : d.tree? = some B) (hne : A ≠ B) (hc : ∀ n ∈ c.nodes s, n ∈ U)
    (hd : ∀ n ∈ d.nodes s, n ∈ U) : s.Commutes c d ∨ s.RefusesOne c d := by
  have hfirst : s.SameAt U A (d.perform s).2 :=
    sameAt_perform hs ho hU hd (hB.trans_ne ((Option.some_injective _).ne hne.symm))
  have hsecond : s.SameAt U B (c.perform s).2 :=
    sameAt_perform hs ho hU hc (hA.trans_ne ((Option.some_injective _).ne hne))
  cases hfirst.agree_perform hU hA hc with
  | refusedLeft h => exact .inr (.inl h)
  | refusedRight h => exact .inr (.inr (.inl h))
  | alike evs result tree made left right =>
      cases hsecond.agree_perform hU hB hd with
      | refusedLeft h => exact .inr (.inr (.inr (.inr h)))
      | refusedRight h => exact .inr (.inr (.inr (.inl h)))
      | alike evs' result' tree' made' left' right' =>
          refine .inl ⟨result, result'.symm, ?_, ?_⟩
          · exact Entered.state_comm hs hU hne tree tree' made made' left right' left' right
          · rw [(hsecond.right.entered hU made' right').served,
              (hfirst.right.entered hU made right).served]

end Store

/-- In every state that a run without a collision leads to, calls on two trees can change places,
and what is asked about one tree is answered as before after a call on the other one. In memory
nothing else can happen. The journal of a file may refuse a frame of one of the calls for its size:
a node that is stored already is left out of a frame, so the second call may have the
smaller one. -/
theorem commutes_of_run {s₀ : Store} (hnew : s₀.IsNew) {steps : List Step} {c d : Call}
    {A B : TreeId} (hA : c.tree? = some A) (hB : d.tree? = some B) (hne : A ≠ B)
    (hc : CollisionFree
      (contents s₀ (steps ++ [.call c, .call d]) ++ contents s₀ (steps ++ [.call d, .call c]))) :
    ∃ s, run s₀ steps = .ok s ∧
      (∀ q : Question, q.tree? = some B → q.answer (c.perform s).2 = q.answer s) ∧
      (s.Commutes c d ∨ s.RefusesOne c d) := by
  obtain ⟨U, hU, hin⟩ : ∃ U, Set.InjOn Node.hash U ∧
      ∀ n ∈ contents s₀ (steps ++ [.call c, .call d]) ++ contents s₀ (steps ++ [.call d, .call c]),
        n ∈ U := by
    refine ⟨_, hc.injOn_hash fun n hn => ?_, fun _ hn => hn⟩
    exact (List.mem_append.mp hn).elim hash_of_mem_contents hash_of_mem_contents
  obtain ⟨s₂, hrun₂, -⟩ := (hnew.intact U).exists_run hU (steps ++ [.call c, .call d])
    fun n hn => hin n (List.mem_append_left _ hn)
  obtain ⟨s, hrun, -⟩ := exists_run_append hrun₂
  rw [contents_append hrun, contents_append hrun] at hin
  simp only [contents, List.mem_append] at hin
  obtain ⟨s', hrun', hs, -⟩ := (hnew.intact U).exists_run hU steps
    fun n hn => hin n (.inl (.inl hn))
  obtain rfl : s = s' := Except.ok.inj (hrun.symm.trans hrun')
  have ho := hnew.orderly.of_run hrun
  have hcn : ∀ n ∈ c.nodes s, n ∈ U := fun n hn => hin n (.inl (.inr (.inl hn)))
  have hdn : ∀ n ∈ d.nodes s, n ∈ U := fun n hn => hin n (.inr (.inr (.inl hn)))
  refine ⟨s, hrun, fun q hq => ?_, Store.commutes_of_ne hs ho hU hA hB hne hcn hdn⟩
  have hsame : s.SameAt U B (c.perform s).2 :=
    Store.sameAt_perform hs ho hU hcn (hA.trans_ne ((Option.some_injective _).ne hne))
  exact (hsame.answer_eq hU hq).symm

/-- A tree is copied into another one while it goes on: both make the same two nodes. -/
theorem commutes_of_copy :
    let other : TreeId := ⟨.replicate 8⟩
    let steps := [.call (.addTree sampleTree), .call (.insert sampleTree [1] [10] none none),
      .call (.addTree other)]
    let c := Call.insert sampleTree [2] [20] (some (.terminal [1] [10])) (some .right)
    let d := Call.replay other [.insertion ⟨.terminal [1] [10], [1], [10], none, none, .pending⟩,
      .insertion ⟨.internal (.terminal [1] [10]) (.terminal [2] [20]), [2], [20],
        some (.terminal [1] [10]), some .right, .pending⟩]
    sampleTree ≠ other ∧
      CollisionFree (contents (.create sampleCodec) (steps ++ [.call c, .call d]) ++
        contents (.create sampleCodec) (steps ++ [.call d, .call c])) ∧
      ∃ s, run (.create sampleCodec) steps = .ok s ∧ (c.perform s).1.isOk ∧ (d.perform s).1.isOk ∧
        s.Commutes c d ∧
        ∀ q : Question, q.tree? = some other → q.answer (c.perform s).2 = q.answer s := by
  intro other steps c d
  have hne : sampleTree ≠ other := by decide +kernel
  have hc : CollisionFree (contents (.create sampleCodec) (steps ++ [.call c, .call d]) ++
      contents (.create sampleCodec) (steps ++ [.call d, .call c])) := by decide +kernel
  have hdone : ((run (.create sampleCodec) steps).toOption.map fun s =>
      [(c.perform s).1.isOk, (c.perform (d.perform s).2).1.isOk,
        (d.perform (c.perform s).2).1.isOk, (d.perform s).1.isOk]) =
      some [true, true, true, true] := by decide +kernel
  obtain ⟨s, hrun, hreads, hcommutes⟩ := commutes_of_run (.inr ⟨_, rfl⟩) rfl rfl hne hc
  simp only [hrun, Except.toOption, Option.map_some, Option.some.injEq, List.cons.injEq,
    and_true] at hdone
  obtain ⟨h₁, h₂, h₃, h₄⟩ := hdone
  have haccepted {x : Action Answer} {s : Store} (h : (x s).1.isOk = true) : ¬ s.Refuses x := by
    rintro ⟨hrefused, -⟩
    cases hx : (x s).1 with
    | error err =>
        rw [hx] at h
        cases h
    | ok r =>
        rw [hx] at hrefused
        cases hrefused
  refine ⟨hne, hc, s, hrun, h₁, h₄, hcommutes.resolve_right ?_, hreads⟩
  rintro (h | h | h | h)
  · exact haccepted h₁ h
  · exact haccepted h₂ h
  · exact haccepted h₃ h
  · exact haccepted h₄ h

end MerkleStore
