import MerkleStore.Proofs.Writes

/-!
# Repeating operations without any assumption

Repeating operations on a tree puts pending generations behind those that are there,
with the roots the operations give, up to the first one that fails
(`Store.replay_cases`). Nothing is assumed about digests, and no other tree is touched.
-/

namespace MerkleStore

/-! ## Generations of a state -/

namespace State

variable {s : State} {t : TreeId} {h : History} {g : Nat}

/-- The root of a generation of a tree, if there is one. -/
def root? (s : State) (t : TreeId) (g : Nat) : Option Root := s.trees[t]?.bind fun h => h.roots[g]?

theorem root?_of_tree (ht : s.trees[t]? = some h) (g : Nat) : s.root? t g = h.roots[g]? := by
  rw [root?, ht, Option.bind_some]

/-- A generation of a tree has been confirmed. -/
def IsCommitted (s : State) (t : TreeId) (g : Nat) : Prop :=
  ∃ r, s.root? t g = some r ∧ r.status = .committed

theorem isCommitted_of_tree (ht : s.trees[t]? = some h) :
    s.IsCommitted t g ↔ ∃ r, h.roots[g]? = some r ∧ r.status = .committed := by
  simp only [IsCommitted, root?_of_tree ht]

end State

namespace Store

variable {s : Store} {t : TreeId} {h : History} {r : Root}

theorem servedTree_eq_ok :
    s.servedTree t = .ok h ↔ s.isOutOfService t = false ∧ s.state.trees[t]? = some h := by
  rw [servedTree, requireInService]
  cases s.isOutOfService t with
  | true => simp [bind, Except.bind]
  | false => simpa [bind, Except.bind] using State.tree_eq_ok

theorem Orderly.inOrder (ho : s.Orderly) (hs : s.servedTree t = .ok h) : h.InOrder t :=
  (ho.state.trees t h (tree_of_servedTree hs)).inOrder

theorem latestRoot_of_servedTree (hs : s.servedTree t = .ok h) : s.latestRoot t = .ok h.latest := by
  simp only [latestRoot, hs, bind, Except.bind, pure, Except.pure]

theorem root_of_servedTree (hs : s.servedTree t = .ok h) {g : Nat} (hr : h.roots[g]? = some r) :
    s.root t g = .ok r := by
  simp only [root, hs, hr, bind, Except.bind, pure, Except.pure]

end Store

/-! ## Generations behind the last one -/

/-- Pending generations that lead to the roots of operations stand behind a history. -/
structure History.Appended (h h' : History) (os : List Operation) : Prop where
  roots : ∃ news, h'.roots = h.roots ++ news ∧ news.map Root.node = os.map Operation.root ∧
    ∀ r ∈ news, r.status = .pending
  operations : ∃ logged, h'.operations = h.operations ++ logged ∧
    logged.map Operation.root = os.map Operation.root

namespace History

variable {h h' h'' : History} {os os' : List Operation}

theorem Appended.refl (h : History) : h.Appended h [] :=
  ⟨⟨[], by simp, rfl, by simp⟩, [], by simp, rfl⟩

theorem Appended.trans (ha : h.Appended h' os) (hb : h'.Appended h'' os') :
    h.Appended h'' (os ++ os') := by
  obtain ⟨⟨news, hroots, hnodes, hstatus⟩, logged, hops, hlogged⟩ := ha
  obtain ⟨⟨news', hroots', hnodes', hstatus'⟩, logged', hops', hlogged'⟩ := hb
  refine ⟨⟨news ++ news', ?_, ?_, ?_⟩, logged ++ logged', ?_, ?_⟩
  · rw [hroots', hroots, List.append_assoc]
  · rw [List.map_append, List.map_append, hnodes, hnodes']
  · intro r hr
    exact (List.mem_append.mp hr).elim (hstatus r) (hstatus' r)
  · rw [hops', hops, List.append_assoc]
  · rw [List.map_append, List.map_append, hlogged, hlogged']

theorem appended_log (h : History) {o o' : Operation} (u : IndexChange) (ho : o.root = o'.root) :
    h.Appended (h.log o u) [o'] :=
  ⟨⟨[h.latest.next o.root], rfl, by simp [Root.next, ho], by simp [Root.next]⟩, [o], rfl,
    by simp [ho]⟩

theorem Appended.length_roots (ha : h.Appended h' os) :
    h'.roots.length = h.roots.length + os.length := by
  obtain ⟨⟨news, hroots, hnodes, -⟩, -⟩ := ha
  have hlength : news.length = os.length := by simpa using congrArg List.length hnodes
  rw [hroots, List.length_append, hlength]

/-- The last root afterwards is that of the last operation. -/
theorem Appended.node_latest (ha : h.Appended h' os) :
    h'.latest.node = (os.map Operation.root).getLastD h.latest.node := by
  obtain ⟨⟨news, hroots, hnodes, -⟩, -⟩ := ha
  have hlast : h'.roots.getLast? = some h'.latest := List.getLast?_eq_some_getLast h'.roots_ne_nil
  have hlast' : h.roots.getLast? = some h.latest := List.getLast?_eq_some_getLast h.roots_ne_nil
  rw [hroots, List.getLast?_append, hlast'] at hlast
  rw [← hnodes, List.getLastD_eq_getLast?, List.getLast?_map]
  cases hnew : news.getLast? with
  | none =>
      rw [hnew, Option.none_or, Option.some.injEq] at hlast
      simp [hlast]
  | some r =>
      rw [hnew, Option.some_or, Option.some.injEq] at hlast
      simp [hlast]

/-- Generations that were there stay, and each of the others has the root of its
operation. -/
theorem Appended.getElem?_roots (ha : h.Appended h' os) (g : Nat) (r : Root)
    (hr : h'.roots[g]? = some r) :
    h.roots[g]? = some r ∨ h.roots.length ≤ g ∧ r.status = .pending ∧
      ∃ o, os[g - h.roots.length]? = some o ∧ o.root = r.node := by
  obtain ⟨⟨news, hroots, hnodes, hstatus⟩, -⟩ := ha
  rw [hroots, List.getElem?_append] at hr
  split at hr
  · exact .inl hr
  · next hge =>
      refine .inr ⟨Nat.not_lt.mp hge, hstatus r (List.mem_of_getElem? hr), ?_⟩
      have hnode := congrArg (·[g - h.roots.length]?) hnodes
      simp only [List.getElem?_map, hr, Option.map_some] at hnode
      obtain ⟨o, ho, hroot⟩ := Option.map_eq_some_iff.mp hnode.symm
      exact ⟨o, ho, hroot⟩

/-- Generations that were there stay. -/
theorem Appended.getElem?_roots_of_some (ha : h.Appended h' os) {g : Nat} {r : Root}
    (hr : h.roots[g]? = some r) : h'.roots[g]? = some r := by
  obtain ⟨⟨news, hroots, -, -⟩, -⟩ := ha
  rw [hroots, List.getElem?_append_left (List.getElem?_eq_some_iff.mp hr).1, hr]

/-- Every operation has led to a pending generation with its root. -/
theorem Appended.exists_root (ha : h.Appended h' os) {i : Nat} {o : Operation}
    (ho : os[i]? = some o) :
    ∃ r, h'.roots[h.roots.length + i]? = some r ∧ r.status = .pending ∧ o.root = r.node := by
  obtain ⟨⟨news, hroots, hnodes, hstatus⟩, -⟩ := ha
  have hnode := congrArg (·[i]?) hnodes
  simp only [List.getElem?_map, ho, Option.map_some] at hnode
  obtain ⟨r, hr, hroot⟩ := Option.map_eq_some_iff.mp hnode
  refine ⟨r, ?_, hstatus r (List.mem_of_getElem? hr), hroot.symm⟩
  rw [hroots, List.getElem?_append_right (Nat.le_add_right _ _), Nat.add_sub_cancel_left, hr]

end History

namespace State

variable {s s' s'' : State} {t : TreeId} {os os' : List Operation}

/-- Generations that operations lead to were put behind the last one of a tree. -/
structure Appends (s s' : State) (t : TreeId) (os : List Operation) : Prop where
  nodes : ∀ (h : Hash) (n : Node), s.nodes[h]? = some n → s'.nodes[h]? = some n
  others : ∀ t' : TreeId, t' ≠ t → s'.trees[t']? = s.trees[t']?
  tree : ∀ h : History, s.trees[t]? = some h →
    ∃ h', s'.trees[t]? = some h' ∧ h.Appended h' os

theorem Appends.refl (s : State) (t : TreeId) : s.Appends s t [] :=
  ⟨fun _ _ h => h, fun _ _ => rfl, fun h ht => ⟨h, ht, .refl h⟩⟩

theorem Appends.trans (ha : s.Appends s' t os) (hb : s'.Appends s'' t os') :
    s.Appends s'' t (os ++ os') where
  nodes := fun h n hn => hb.nodes h n (ha.nodes h n hn)
  others := fun t' ht' => (hb.others t' ht').trans (ha.others t' ht')
  tree := by
    intro h ht
    obtain ⟨h', ht', happended⟩ := ha.tree h ht
    obtain ⟨h'', ht'', happended'⟩ := hb.tree h' ht'
    exact ⟨h'', ht'', happended.trans happended'⟩

/-- New generations are pending. -/
theorem Appends.isCommitted_iff {h : History} (ha : s.Appends s' t os)
    (ht : s.trees[t]? = some h) {g : Nat} : s'.IsCommitted t g ↔ s.IsCommitted t g := by
  obtain ⟨h', ht', happended⟩ := ha.tree h ht
  rw [isCommitted_of_tree ht, isCommitted_of_tree ht']
  constructor
  · rintro ⟨r, hr, hstatus⟩
    rcases happended.getElem?_roots g r hr with hr | ⟨-, hpending, -⟩
    · exact ⟨r, hr, hstatus⟩
    · rw [hpending] at hstatus
      cases hstatus
  · rintro ⟨r, hr, hstatus⟩
    exact ⟨r, happended.getElem?_roots_of_some hr, hstatus⟩

theorem Logs.appends {o o' : Operation} (hl : s.Logs t o s') (ho : o.root = o'.root) :
    s.Appends s' t [o'] := by
  cases hl with
  | @intro h ns u ht hg hroot =>
      refine ⟨fun k n hn => NodeMap.getElem?_addAll_of_some hn, fun t' ht' => ?_, fun k hk => ?_⟩
      · rw [getElem?_setTree, if_neg (Ne.symm ht')]
      · rw [ht] at hk
        cases hk
        exact ⟨_, by rw [getElem?_setTree, if_pos rfl], h.appended_log u ho⟩

end State

namespace Store

variable {s s' : Store} {t : TreeId} {os : List Operation}

/-- A store after operations were repeated on one of its trees. -/
structure Replayed (s s' : Store) (t : TreeId) (os : List Operation) : Prop where
  appends : s.state.Appends s'.state t os
  quarantined : s'.quarantined = s.quarantined
  orderly : s'.Orderly

theorem Replayed.servedTree {h : History} (hr : s.Replayed s' t os) (hs : s.servedTree t = .ok h) :
    ∃ h', s'.servedTree t = .ok h' ∧ h.Appended h' os := by
  obtain ⟨hserved, ht⟩ := servedTree_eq_ok.mp hs
  obtain ⟨h', ht', happended⟩ := hr.appends.tree h ht
  exact ⟨h', servedTree_eq_ok.mpr ⟨by rwa [isOutOfService, hr.quarantined], ht'⟩, happended⟩

theorem Replayed.refl (ho : s.Orderly) (t : TreeId) : s.Replayed s t [] := ⟨.refl _ t, rfl, ho⟩

theorem Replayed.trans {s₁ : Store} {os' : List Operation} (hr : s.Replayed s₁ t os)
    (hr' : s₁.Replayed s' t os') : s.Replayed s' t (os ++ os') where
  appends := hr.appends.trans hr'.appends
  quarantined := hr'.quarantined.trans hr.quarantined
  orderly := hr'.orderly

/-- An operation is repeated, or fails and leaves the store as it is. -/
theorem replayOne_cases (ho : s.Orderly) (t : TreeId) (o : Operation) :
    (∃ e, replayOne t o s = (.error e, s)) ∨
      ∃ s', replayOne t o s = (.ok (), s') ∧ s.Replayed s' t [o] := by
  rw [replayOne_eq]
  rcases carryOut_writes ho.state t o (some o.root) with herror | ⟨o', s', hl, hw, hroot, heq⟩
  · exact .inl herror
  · exact .inr ⟨s', heq, hl.appends (hroot o.root rfl), hw.quarantined, ho.writes hw⟩

/-- Operations are repeated up to the first one that fails. -/
theorem replayFrom_cases (ho : s.Orderly) (t : TreeId) (root : Option Hash)
    (os : List Operation) :
    (∃ e s' i, replayFrom t root os s = (.error e, s') ∧ s.Replayed s' t (os.take i)) ∨
      ∃ s', replayFrom t root os s = (.ok ((os.map Operation.root).getLastD root), s') ∧
        s.Replayed s' t os := by
  induction os generalizing s root with
  | nil => exact .inr ⟨s, rfl, .refl ho t⟩
  | cons o os ih =>
      simp only [replayFrom, bind, Action.andThen]
      rcases replayOne_cases ho t o with ⟨e, heq⟩ | ⟨s₁, heq, hone⟩
      · exact .inl ⟨e, s, 0, by rw [heq], .refl ho t⟩
      · rw [heq]
        rcases ih hone.orderly o.root with ⟨e, s', i, hreplay, hrest⟩ | ⟨s', hreplay, hrest⟩
        · exact .inl ⟨e, s', i + 1, hreplay, hone.trans hrest⟩
        · rw [List.map_cons, List.getLastD_cons]
          exact .inr ⟨s', hreplay, hone.trans hrest⟩

/-- Operations are repeated behind the latest root up to the first one that fails, and
the last root afterwards is given. -/
theorem replay_cases (ho : s.Orderly) {r : Root} (hr : s.latestRoot t = .ok r)
    (os : List Operation) :
    (∃ e s' i, replay t os s = (.error e, s') ∧ s.Replayed s' t (os.take i)) ∨
      ∃ s', replay t os s = (.ok ((os.map Operation.root).getLastD r.node), s') ∧
        s.Replayed s' t os := by
  have hreplay : replay t os s = replayFrom t r.node os s := by
    simp only [replay, bind, Action.andThen, Action.read, hr]
  rw [hreplay]
  exact replayFrom_cases ho t r.node os

end Store

end MerkleStore
