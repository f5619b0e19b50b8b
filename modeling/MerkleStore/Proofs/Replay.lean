import MerkleStore.Proofs.Reads
import MerkleStore.Proofs.Run

/-!
# Repeating the operations of a tree

The operations between two generations of one tree, repeated on a tree that shows the
version of the first one, lead through the same versions (`replayFrom_leads`): what was
recorded about each edit asks the version before it for the same edit, whatever else
the two stores hold. `replay_of_run` says so for trees of two runs that have a hash at
the root in common. Only a journal can stand in the way, by refusing a frame.
-/

namespace MerkleStore

namespace Store

open Edit

variable {s s' : Store} {t : TreeId} {h : History} {v w : Version} {e : Edit} {es : List Edit}
  {U : Set Node}

/-- After an edit the tree shows the version it leads to. -/
theorem serves_enter (hs : s.Intact U) (hU : Set.InjOn Node.hash U)
    (hv : s.Serves t h e.source) (hf : e.Fresh) (he : e.target.MadeOf U)
    (hentered : enter (.edit t e) s = (.ok (), s')) :
    s'.Intact U ∧ s'.Serves t (h.extend e) e.target := by
  have hmade : ∀ n ∈ (Event.edit t e).made, n ∈ U := by
    intro n hn
    obtain ⟨a, ha, rfl⟩ := exists_of_mem_made hn
    exact he a ha
  have hs' := hs.enter hU hmade (hv.admits hf)
  rw [hentered] at hs'
  have ht : s'.state.trees[t]? = some (h.extend e) := by
    simp [state_of_enter hentered, State.after, hv.tree]
  obtain ⟨es, v', hm, hv'⟩ := hs'.exists_serves ht
  -- the new root has the hash of the target, and that is the hash of one version
  have heq : v' = e.target := by
    refine Version.eq_of_hash hU (hv'.shows.stored.mono hs'.within.stored_subset) he ?_
    rw [← hv'.shows.root, History.latest_extend]
    rfl
  exact ⟨hs', heq ▸ hv'⟩

/-- What repeating operations adds to a history. -/
structure Repeated (h h' : History) (es : List Edit) : Prop where
  operations : h'.operations = h.operations ++ es.map Edit.operation
  roots : ∃ news, h'.roots = h.roots ++ news ∧
    news.map Root.node = es.map (fun e => e.target.hash) ∧ ∀ r ∈ news, r.status = .pending

theorem Repeated.nil (h : History) : Repeated h h [] :=
  ⟨by simp, [], by simp, rfl, by simp⟩

theorem Repeated.cons {h' : History} (hr : Repeated (h.extend e) h' es) :
    Repeated h h' (e :: es) := by
  obtain ⟨ho, news, hroots, hnodes, hstatus⟩ := hr
  refine ⟨by simp [ho, History.extend], h.latest.next e.target.hash :: news, ?_, ?_, ?_⟩
  · simp [hroots, History.extend]
  · simp [hnodes, Root.next]
  · simpa [Root.next] using hstatus

/-- An operation that was recorded about an edit makes the same edit again. -/
theorem replayOne_of_edit (hs : s.Intact U) (hU : Set.InjOn Node.hash U)
    (hv : s.Serves t h e.source) (hf : e.Fresh) {o : Operation}
    (ho : o.withStatus .pending = e.operation) :
    e.source.editFor t o = .ok e ∧ e.target.hash = o.root ∧
      replayOne t o s = enter (.edit t e) s := by
  have hedit : e.source.editFor t o = .ok e := by
    have := Version.editFor_operation hU (hv.shows.stored.mono hs.within.stored_subset)
      hv.shows.distinct hf t
    rwa [← ho, Version.editFor_withStatus] at this
  have hroot : e.target.hash = o.root := by
    rw [← Edit.root_operation, ← ho]
    cases o <;> rfl
  refine ⟨hedit, hroot, ?_⟩
  rw [replayOne_eq, carryOut_eq hv, hedit]
  simp only [enterToward, hroot, if_true]

/-- Recorded operations lead through the versions they were recorded at, up to the first
one that the journal refuses. -/
theorem replayFrom_leads (hs : s.Intact U) (hU : Set.InjOn Node.hash U) (hv : s.Serves t h v)
    (hl : Leads v es w) (hes : ∀ e ∈ es, e.target.MadeOf U) {os : List Operation}
    (hos : os.map (Operation.withStatus .pending) = es.map Edit.operation) :
    (∃ s' h', replayFrom t v.hash os s = (.ok w.hash, s') ∧ s'.Serves t h' w ∧
      Repeated h h' es) ∨
    ∃ err s' h' v' i, replayFrom t v.hash os s = (.error err, s') ∧ err.refusesFrame = true ∧
      (∃ f, s.journal = some f) ∧ i < es.length ∧ s'.Serves t h' v' ∧
      Repeated h h' (es.take i) := by
  induction es generalizing s h v os with
  | nil =>
      obtain rfl := List.map_eq_nil_iff.mp hos
      obtain rfl : v = w := hl
      exact .inl ⟨s, h, rfl, hv, .nil h⟩
  | cons e es ih =>
      obtain ⟨o, os, rfl, ho, hos⟩ := List.map_eq_cons_iff.mp hos
      obtain ⟨rfl, hf, hl⟩ := hl
      obtain ⟨-, hroot, hone⟩ := replayOne_of_edit hs hU hv hf ho
      simp only [replayFrom, bind, Action.andThen, hone]
      rcases enter_cases (.edit t e) s with ⟨err, heq⟩ | ⟨s', heq⟩
      · obtain ⟨hrefuses, hjournal⟩ := refusesFrame_of_enter heq
        exact .inr ⟨err, s, h, e.source, 0, by rw [heq], hrefuses, hjournal, Nat.zero_lt_succ _, hv,
          .nil h⟩
      · obtain ⟨hs', hv'⟩ := serves_enter hs hU hv hf (hes e List.mem_cons_self) heq
        rw [heq, ← hroot]
        rcases ih hs' hv' hl (fun e' he' => hes e' (List.mem_cons_of_mem _ he')) hos with
          ⟨s'', h', hreplay, hv'', hrepeated⟩ |
          ⟨err, s'', h', v', i, hreplay, hrefuses, hjournal, hi, hv'', hrepeated⟩
        · exact .inl ⟨s'', h', hreplay, hv'', hrepeated.cons⟩
        · exact .inr ⟨err, s'', h', v', i + 1, hreplay, hrefuses, journal_of_enter heq hjournal,
            Nat.succ_lt_succ hi, hv'', hrepeated.cons⟩

/-- Recorded operations make nodes of the versions they were recorded at. -/
theorem mem_of_replayNodes (hs : s.Intact U) (hU : Set.InjOn Node.hash U) (hv : s.Serves t h v)
    (hl : Leads v es w) (hes : ∀ e ∈ es, e.target.MadeOf U) {os : List Operation}
    (hos : os.map (Operation.withStatus .pending) = es.map Edit.operation) :
    ∀ n ∈ replayNodes t os s, n ∈ U := by
  induction es generalizing s h v os with
  | nil =>
      obtain rfl := List.map_eq_nil_iff.mp hos
      simp [replayNodes]
  | cons e es ih =>
      obtain ⟨o, os, rfl, ho, hos⟩ := List.map_eq_cons_iff.mp hos
      obtain ⟨rfl, hf, hl⟩ := hl
      obtain ⟨hedit, -, hone⟩ := replayOne_of_edit hs hU hv hf ho
      have he := hes e List.mem_cons_self
      intro n hn
      rw [replayNodes, State.operationNodes_eq hv.tree hv.shows hedit, hone,
        List.mem_append] at hn
      rcases hn with hn | hn
      · obtain ⟨a, ha, rfl⟩ := exists_of_mem_made hn
        exact he a ha
      · rcases enter_cases (.edit t e) s with ⟨err, heq⟩ | ⟨s', heq⟩ <;> rw [heq] at hn
        · cases hn
        · obtain ⟨hs', hv'⟩ := serves_enter hs hU hv hf he heq
          exact ih hs' hv' hl (fun e' he' => hes e' (List.mem_cons_of_mem _ he')) hos n hn

/-- A tree goes on after its generation `g` with new generations, made by operations,
that have the hashes of old ones at their roots. -/
structure Continues (s s' : Store) (t : TreeId) (g : Nat) (olds : List Root)
    (os : List Operation) : Prop where
  kept : ∀ i ≤ g, s'.root t i = s.root t i
  latest : s'.latestGeneration t = .ok (g + os.length)
  roots : ∃ news, s'.rootsBetween t (g + 1) (g + os.length + 1) = .ok news ∧
    news.map Root.node = olds.map Root.node
  operations : s'.operations t g (g + os.length) = .ok (os.map (Operation.withStatus .pending))

theorem map_withStatus_zipWith {ops : List Operation} {roots : List Root}
    (hlength : ops.length ≤ roots.length) :
    (ops.zipWith (fun o r => o.withStatus r.status) roots).map (Operation.withStatus .pending) =
      ops.map (Operation.withStatus .pending) := by
  induction ops generalizing roots with
  | nil => rfl
  | cons o ops ih =>
      cases roots with
      | nil => simp at hlength
      | cons r roots =>
          rw [List.zipWith_cons_cons, List.map_cons, List.map_cons, ih (by simpa using hlength)]
          cases o <;> rfl

/-- Operations of pending generations are given as pending ones. -/
theorem zipWith_withStatus {ops : List Operation} {roots : List Root}
    (hlength : ops.length ≤ roots.length) (hstatus : ∀ r ∈ roots, r.status = .pending) :
    ops.zipWith (fun o r => o.withStatus r.status) roots =
      ops.map (Operation.withStatus .pending) := by
  induction ops generalizing roots with
  | nil => rfl
  | cons o ops ih =>
      cases roots with
      | nil => simp at hlength
      | cons r roots =>
          rw [List.zipWith_cons_cons, List.map_cons, hstatus r List.mem_cons_self,
            ih (by simpa using hlength) fun r' hr' => hstatus r' (List.mem_cons_of_mem _ hr')]

theorem withStatus_operation (e : Edit) : e.operation.withStatus .pending = e.operation := by
  cases e <;> rfl

/-- Operations that were repeated are logged as pending ones. -/
theorem Repeated.continues {h' : History} (hr : Repeated h h' es) (hv : s.Serves t h v)
    (hv' : s'.Serves t h' w) {olds : List Root} {os : List Operation}
    (holds : olds.map Root.node = es.map fun e => e.target.hash)
    (hos : os.map (Operation.withStatus .pending) = es.map Edit.operation) :
    s.Continues s' t h.latest.generation olds os := by
  obtain ⟨ho, news, hroots, hnodes, hstatus⟩ := hr
  have hg := hv.inOrder.generation_latest
  have hlength := hv.inOrder.operations
  have hes : es.length = os.length := by simpa using (congrArg List.length hos).symm
  have hnews : news.length = os.length := by
    simpa [hes] using congrArg List.length hnodes
  have hlogged : h'.operations.length = h.operations.length + os.length := by simp [ho, hes]
  have hdrop : (h'.roots.take (h.operations.length + os.length + 1)).drop
      (h.operations.length + 1) = news := by
    rw [List.take_of_length_le (by simp [hroots]; omega), hroots, List.drop_left' hlength.symm]
  refine ⟨fun i hi => ?_, ?_, ⟨news, ?_, hnodes.trans holds.symm⟩, ?_⟩
  · have hi' : h'.roots[i]? = h.roots[i]? := by
      rw [hroots, List.getElem?_append_left (by omega)]
    rw [root_eq hv', root_eq hv, hi']
  · rw [latestGeneration_eq hv', hlogged, hg]
  · rw [rootsBetween_eq hv', hg, hdrop]
  · rw [hg, operations_eq hv' (Nat.le_add_right _ _) (by omega), hdrop,
      List.take_of_length_le (by omega), ho, List.drop_left' rfl,
      zipWith_withStatus (by simp [hes, hnews]) hstatus, hos, List.map_map]
    exact congrArg _ (List.map_congr_left fun e _ => withStatus_operation e)

/-- What a tree gives between two of its generations are the edits that lead from one to
the other. -/
theorem exists_operations (hv : s.Serves t h v) (hm : h.Made s.state.nodes t es v) {g n : Nat}
    (hgn : g ≤ n) (hn : n ≤ es.length) :
    ∃ os olds, s.operations t g n = .ok os ∧ s.rootsBetween t (g + 1) (n + 1) = .ok olds ∧
      os.map (Operation.withStatus .pending) = ((es.take n).drop g).map Edit.operation ∧
      olds.map Root.node = ((es.take n).drop g).map fun e => e.target.hash := by
  have hlength := hm.length_roots
  have hops : h.operations.length = es.length := by simp [hm.operations]
  refine ⟨_, _, operations_eq hv hgn (by omega), rootsBetween_eq hv _ _, ?_, ?_⟩
  · rw [map_withStatus_zipWith (by simp; omega), hm.operations, ← List.map_take, ← List.map_drop,
      List.map_map]
    exact List.map_congr_left fun e _ => withStatus_operation e
  · rw [List.map_drop, List.map_take, hm.roots, versions, List.map_cons, List.take_succ_cons,
      List.drop_succ_cons, List.map_map, ← List.map_take, ← List.map_drop]
    rfl

/-- What one intact store gives between two generations are edits that can be made on a tree
of another one that has the hash of the first generation at its latest root. -/
theorem Intact.exists_edits {source target : Store} (hs : source.Intact U) (ht : target.Intact U)
    (hU : Set.InjOn Node.hash U) {u : TreeId} {g n : Nat} {first last top : Root} (hgn : g ≤ n)
    (hfirst : source.root t g = .ok first) (hlast : source.root t n = .ok last)
    (htop : target.latestRoot u = .ok top) (hsame : top.node = first.node) :
    ∃ os olds es h v w, source.operations t g n = .ok os ∧ os.length = n - g ∧
      source.rootsBetween t (g + 1) (n + 1) = .ok olds ∧ olds.length = n - g ∧
      target.Serves u h v ∧ h.latest = top ∧ Leads v es w ∧ w.hash = last.node ∧
      (∀ e ∈ es, e.target.MadeOf U) ∧
      os.map (Operation.withStatus .pending) = es.map Edit.operation ∧
      olds.map Root.node = es.map fun e => e.target.hash := by
  obtain ⟨h₁, ht₁, -⟩ := exists_of_root hfirst
  obtain ⟨h₂, ht₂⟩ := exists_of_latestRoot htop
  obtain ⟨es, v₁, hm₁, hv₁⟩ := hs.exists_serves ht₁
  obtain ⟨-, v₂, -, hv₂⟩ := ht.exists_serves ht₂
  rw [root_eq_ok hv₁] at hfirst hlast
  rw [latestRoot_eq hv₂, Except.ok.injEq] at htop
  subst htop
  obtain ⟨a, ha, hfirstnode⟩ := hm₁.node_root hfirst
  obtain ⟨b, hb, hlastnode⟩ := hm₁.node_root hlast
  have hstored : ∀ {x : Version}, x ∈ versions none es → x.MadeOf U := fun hx =>
    (hm₁.stored_versions hx).mono hs.within.stored_subset
  -- one hash at the roots, hence one version in the two stores
  obtain rfl : v₂ = a := Version.eq_of_hash hU
    (hv₂.shows.stored.mono ht.within.stored_subset) (hstored (List.mem_of_getElem? ha))
    (by rw [← hv₂.shows.root, hsame, hfirstnode])
  have hn : n ≤ es.length := by
    have hlt := (List.getElem?_eq_some_iff.mp hlast).1
    have := hm₁.length_roots
    omega
  obtain ⟨os, olds, hos, holds, hpending, hhashes⟩ := exists_operations hv₁ hm₁ hgn hn
  refine ⟨os, olds, (es.take n).drop g, h₂, v₂, b, hos, ?_, holds, ?_, hv₂, rfl,
    hm₁.leads.between hgn ha hb, hlastnode.symm, fun e he => ?_, hpending, hhashes⟩
  · simpa [hn] using congrArg List.length hpending
  · simpa [hn] using congrArg List.length hhashes
  · exact hstored (List.mem_cons_of_mem _ (List.mem_map_of_mem
      (List.mem_of_mem_take (List.mem_of_mem_drop he))))

/-- The operations of one intact store, repeated on another one. -/
theorem Intact.exists_replay {source target : Store} (hs : source.Intact U) (ht : target.Intact U)
    (hU : Set.InjOn Node.hash U) {u : TreeId} {g n : Nat} {first last top : Root} (hgn : g ≤ n)
    (hfirst : source.root t g = .ok first) (hlast : source.root t n = .ok last)
    (htop : target.latestRoot u = .ok top) (hsame : top.node = first.node) :
    ∃ os olds, source.operations t g n = .ok os ∧ os.length = n - g ∧
      source.rootsBetween t (g + 1) (n + 1) = .ok olds ∧ olds.length = n - g ∧
      ((∃ target', replay u os target = (.ok last.node, target') ∧
          target.Continues target' u top.generation olds os) ∨
        ∃ err target' i, replay u os target = (.error err, target') ∧
          err.refusesFrame = true ∧ (∃ f, target.journal = some f) ∧ i < os.length ∧
          target.Continues target' u top.generation (olds.take i) (os.take i)) := by
  obtain ⟨os, olds, es, h, v, w, hos, hlength, holds, hlength', hv, rfl, hl, hw, htargets, hpending,
    hhashes⟩ := hs.exists_edits ht hU hgn hfirst hlast htop hsame
  refine ⟨os, olds, hos, hlength, holds, hlength', ?_⟩
  have hstart : replay u os target = replayFrom u v.hash os target := by
    simp only [replay, bind, Action.andThen, Action.read, latestRoot_eq hv, hv.shows.root]
  rw [hstart, ← hw]
  rcases replayFrom_leads ht hU hv hl htargets hpending with
    ⟨target', h', heq, hv', hrepeated⟩ |
    ⟨err, target', h', v', i, heq, hrefuses, hjournal, hi, hv', hrepeated⟩
  · exact .inl ⟨target', heq, hrepeated.continues hv hv' hhashes hpending⟩
  · refine .inr ⟨err, target', i, heq, hrefuses, hjournal, ?_, hrepeated.continues hv hv' ?_ ?_⟩
    · have hedited := congrArg List.length hpending
      simp only [List.length_map] at hedited
      omega
    · rw [List.map_take, hhashes, List.map_take]
    · rw [List.map_take, hpending, List.map_take]

end Store

/-- The operations between two generations of a tree, repeated on a tree with the hash of
the first one at its latest root, lead to the hashes of the following ones. Where the
other store is kept in a file and its journal refuses a frame, they do so up to there. -/
theorem replay_of_run {s₁ s₂ : Store} (hs₁ : s₁.IsNew) (hs₂ : s₂.IsNew)
    {steps₁ steps₂ : List Step} (hc : CollisionFree (contents s₁ steps₁ ++ contents s₂ steps₂)) :
    ∃ source target, run s₁ steps₁ = .ok source ∧ run s₂ steps₂ = .ok target ∧
      ∀ (t u : TreeId) (g n : Nat) (first last top : Root), g ≤ n →
        source.root t g = .ok first → source.root t n = .ok last →
        target.latestRoot u = .ok top → top.node = first.node →
        ∃ os olds, source.operations t g n = .ok os ∧ os.length = n - g ∧
          source.rootsBetween t (g + 1) (n + 1) = .ok olds ∧ olds.length = n - g ∧
          ((∃ target', Store.replay u os target = (.ok last.node, target') ∧
              target.Continues target' u top.generation olds os) ∨
            ∃ err target' i, Store.replay u os target = (.error err, target') ∧
              err.refusesFrame = true ∧ (∃ f, target.journal = some f) ∧ i < os.length ∧
              target.Continues target' u top.generation (olds.take i) (os.take i)) := by
  have hU := hc.injOn_hash fun n hn => (List.mem_append.mp hn).elim hash_of_mem_contents
    hash_of_mem_contents
  obtain ⟨source, hrun₁, hsource, -⟩ := (hs₁.intact _).exists_run hU steps₁ fun n hn =>
    List.mem_append_left _ hn
  obtain ⟨target, hrun₂, htarget, -⟩ := (hs₂.intact _).exists_run hU steps₂ fun n hn =>
    List.mem_append_right _ hn
  refine ⟨source, target, hrun₁, hrun₂, ?_⟩
  intro t u g n first last top hgn hfirst hlast htop hsame
  exact hsource.exists_replay htarget hU hgn hfirst hlast htop hsame

/-- What the small run does after its first insertion, repeated on another tree with the
same first insertion. -/
theorem replay_of_sampleSteps :
    let u : TreeId := ⟨.replicate 8⟩
    let steps := [.call (.addTree u), .call (.insert u [1] [10] none none)]
    CollisionFree (contents .volatile sampleSteps ++ contents .volatile steps) ∧
      ∃ source target target' os last olds, run .volatile sampleSteps = .ok source ∧
        run .volatile steps = .ok target ∧ source.operations sampleTree 1 3 = .ok os ∧
        os.length = 2 ∧ Store.replay u os target = (.ok last, target') ∧
        target.Continues target' u 1 olds os := by
  intro u steps
  have hc : CollisionFree (contents .volatile sampleSteps ++ contents .volatile steps) := by
    decide +kernel
  have hmeet : (do
      let source ← run .volatile sampleSteps
      let target ← run .volatile steps
      let first ← source.root sampleTree 1
      let last ← source.root sampleTree 3
      let top ← target.latestRoot u
      return (top.node == first.node && top.generation == 1 && target.journal.isNone) :
        Except Error Bool).toOption = some true := by decide +kernel
  obtain ⟨source, target, hrun₁, hrun₂, hreplay⟩ := replay_of_run (.inl rfl) (.inl rfl) hc
  simp only [hrun₁, hrun₂, bind, Except.bind] at hmeet
  cases hfirst : source.root sampleTree 1 with
  | error err => simp [hfirst, Except.toOption] at hmeet
  | ok first =>
      cases hlast : source.root sampleTree 3 with
      | error err => simp [hfirst, hlast, Except.toOption] at hmeet
      | ok last =>
          cases htop : target.latestRoot u with
          | error err => simp [hfirst, hlast, htop, Except.toOption] at hmeet
          | ok top =>
              simp only [hfirst, hlast, htop, pure, Except.pure, Except.toOption,
                Option.some.injEq, Bool.and_eq_true, beq_iff_eq, Option.isNone_iff_eq_none] at hmeet
              obtain ⟨⟨hsame, hg⟩, hnone⟩ := hmeet
              obtain ⟨os, olds, hos, hlength, -, -, hmade⟩ :=
                hreplay sampleTree u 1 3 first last top (by decide) hfirst hlast htop hsame
              rcases hmade with ⟨target', heq, hcontinues⟩ | ⟨_, _, _, _, _, ⟨f, hf⟩, _⟩
              · exact ⟨hc, source, target, target', os, last.node, olds, hrun₁, hrun₂, hos, hlength,
                  heq, hg ▸ hcontinues⟩
              · rw [hnone] at hf
                cases hf

end MerkleStore
