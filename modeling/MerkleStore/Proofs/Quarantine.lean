import MerkleStore.Proofs.Exactness

/-!
# Audits one after another

An audit stops at the first tree that does not pass on its own and takes it out of service. The
next audit looks at this tree again, whether it is served or not, and so it stops at the same place:
audits after the first one change nothing (`Store.audited_of_pos`). Of several damaged trees only
the one with the smallest id is ever taken out of service, and the others stay in
(`Store.damaged_stays_served`).
-/

namespace MerkleStore.Store

variable {s : Store} {t t' : TreeId} {n : Nat}

/-- The store after so many audits. -/
def audited (n : Nat) (s : Store) : Store := (fun s => (Store.audit s).2)^[n] s

theorem isOutOfService_takeOutOfService : (s.takeOutOfService t).isOutOfService t' = true ↔
    s.isOutOfService t' = true ∨ t' = t := by
  rw [isOutOfService, takeOutOfService, isOutOfService, Std.ExtTreeSet.contains_iff_mem,
    Std.ExtTreeSet.mem_insert, Std.ExtTreeSet.contains_iff_mem, Std.LawfulEqCmp.compare_eq_iff_eq,
    or_comm, eq_comm]

/-- A tree is taken out of service once. -/
theorem takeOutOfService_twice (s : Store) (t : TreeId) :
    (s.takeOutOfService t).takeOutOfService t = s.takeOutOfService t := by
  have hset : (s.quarantined.insert t).insert t = s.quarantined.insert t := by
    refine Std.ExtTreeSet.ext_mem fun k => ?_
    rw [Std.ExtTreeSet.mem_insert, Std.ExtTreeSet.mem_insert]
    tauto
  simp only [takeOutOfService, hset]

/-- What an audit does to a store depends on the state alone. -/
theorem snd_audit_cases (s : Store) : (∀ s' : Store, s'.state = s.state → (Store.audit s').2 = s') ∨
    ∃ t, ∀ s' : Store, s'.state = s.state → (Store.audit s').2 = s'.takeOutOfService t := by
  cases haudit : s.state.audit with
  | ok =>
      left
      intro s' hs'
      simp only [Store.audit, hs', haudit]
  | error e =>
      cases e with
      | integrity v =>
          cases hv : v.tree? with
          | none =>
              left
              intro s' hs'
              simp only [Store.audit, hs', haudit, hv]
          | some t =>
              right
              refine ⟨t, fun s' hs' => ?_⟩
              simp only [Store.audit, hs', haudit, hv]
      | _ =>
          left
          intro s' hs'
          simp only [Store.audit, hs', haudit]

/-- Another audit changes nothing. -/
theorem snd_audit_twice (s : Store) : (Store.audit (Store.audit s).2).2 = (Store.audit s).2 := by
  rcases snd_audit_cases s with hsame | ⟨t, htaken⟩
  · rw [hsame s rfl, hsame s rfl]
  · rw [htaken s rfl, htaken (s.takeOutOfService t) rfl, takeOutOfService_twice]

/-- Only the first of several audits changes anything. -/
theorem audited_of_pos (hn : 0 < n) (s : Store) : s.audited n = (Store.audit s).2 := by
  induction n with
  | zero => omega
  | succ n ih =>
      rw [audited, Function.iterate_succ_apply']
      rcases Nat.eq_zero_or_pos n with rfl | hpos
      · rfl
      · have hbefore : (fun s => (Store.audit s).2)^[n] s = (Store.audit s).2 := ih hpos
        rw [hbefore]
        exact snd_audit_twice s

/-- However often a store is audited, all that changes is that the first tree in the order of ids
that does not pass on its own is taken out of service, if it is damaged. The trees before it pass.
Nothing is done about damaged trees behind it, or if the audit of the first one is endless. -/
theorem outOfService_of_audits (s : Store) (hn : 0 < n) :
    (s.audited n = s ∧
      ∀ (t : TreeId) (h : History), s.state.trees[t]? = some h → s.state.auditTree t h = .ok ()) ∨
    (∃ t h x, s.audited n = s.takeOutOfService t ∧
      (∀ t', (s.audited n).isOutOfService t' = true ↔ s.isOutOfService t' = true ∨ t' = t) ∧
      s.state.trees[t]? = some h ∧ s.state.auditTree t h = .error (.integrity (.damaged t x)) ∧
      s.state.PassBefore t) ∨
    (∃ t h, s.audited n = s ∧ s.state.trees[t]? = some h ∧
      s.state.auditTree t h = .error .endless ∧ s.state.PassBefore t) := by
  rw [audited_of_pos hn]
  rcases State.audit_cases s.state with
    ⟨hall, ⟨-, hok⟩ | ⟨k, m, -, -, herror⟩⟩ | ⟨t, h, ht, hbefore, hstop⟩
  · exact .inl ⟨by simp only [Store.audit, hok], hall⟩
  · exact .inl ⟨by simp only [Store.audit, herror, Violation.tree?], hall⟩
  · rcases hstop with ⟨⟨x, hown⟩, y, herror⟩ | ⟨hown, herror⟩
    · have htaken : (Store.audit s).2 = s.takeOutOfService t := by
        simp only [Store.audit, herror, Violation.tree?]
      refine .inr (.inl ⟨t, h, x, htaken, fun t' => ?_, ht, hown, hbefore⟩)
      rw [htaken, isOutOfService_takeOutOfService]
    · exact .inr (.inr ⟨t, h, by simp only [Store.audit, herror], ht, hown, hbefore⟩)

/-- Two trees with roots that lead to no node. -/
def lostDeeds : List Deed :=
  let root (t : TreeId) : Root := ⟨t, 0, some (.terminal [3] [30]), .pending⟩
  [.commit (Transaction.empty.add (.root (root sampleTree))),
    .commit (Transaction.empty.add (.root (root lostTree)))]

/-- Two audits take the first one of them out of service. -/
theorem outOfService_of_lostDeeds :
    let s := lostDeeds.foldl Deed.after .volatile
    0 < 2 ∧ ∃ h x, s.audited 2 = s.takeOutOfService sampleTree ∧
      (∀ t', (s.audited 2).isOutOfService t' = true ↔
        s.isOutOfService t' = true ∨ t' = sampleTree) ∧
      s.state.trees[sampleTree]? = some h ∧
      s.state.auditTree sampleTree h = .error (.integrity (.damaged sampleTree x)) ∧
      s.state.PassBefore sampleTree := by
  intro s
  refine ⟨by decide, ?_⟩
  have heval : (s.audited 2).isOutOfService sampleTree = true ∧
      s.isOutOfService sampleTree = false := by decide +kernel
  obtain ⟨htaken, hserved⟩ := heval
  rcases outOfService_of_audits s (show 0 < 2 by decide) with
    ⟨hsame, -⟩ | ⟨t, h, x, haudited, hout, hfails⟩ | ⟨t, h, hsame, -⟩
  · rw [hsame, hserved] at htaken
    cases htaken
  · rcases (hout sampleTree).mp htaken with hbefore | rfl
    · rw [hserved] at hbefore
      cases hbefore
    · exact ⟨h, x, haudited, hout, hfails⟩
  · rw [hsame, hserved] at htaken
    cases htaken

/-- After as many audits as there are trees one of two damaged trees is still served. -/
theorem damaged_stays_served :
    let s := lostDeeds.foldl Deed.after .volatile
    ∃ h x, s.state.trees[lostTree]? = some h ∧
      s.state.auditTree lostTree h = .error (.integrity (.damaged lostTree x)) ∧
      (s.audited s.state.trees.size).isOutOfService lostTree = false := by
  intro s
  have heval : s.state.trees[lostTree]?.map (s.state.auditTree lostTree) =
        some (.error (.integrity (.damaged lostTree (.missingNode (.terminal [3] [30]))))) ∧
      (s.audited s.state.trees.size).isOutOfService lostTree = false := by decide +kernel
  obtain ⟨hown, hserved⟩ := heval
  obtain ⟨h, ht, hown⟩ := Option.map_eq_some_iff.mp hown
  exact ⟨h, _, ht, hown, hserved⟩

end MerkleStore.Store
