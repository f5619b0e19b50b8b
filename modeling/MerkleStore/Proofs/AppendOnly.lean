import MerkleStore.Proofs.Durability
import MerkleStore.Proofs.Safety

/-!
# What has been written stays

A node that is stored stays as it is, trees stay, and the roots and operations of a tree
only get new ones behind them; all that becomes of a root is that it is confirmed
(`State.RemainsIn`). One record brings this about, whatever record it is
(`State.remainsIn_of_apply`), so the records of a transaction do, and so does every row of calls
and transactions on a store in any state (`Store.remainsIn_of_deeds`).
-/

namespace MerkleStore

theorem Root.Keeps.refl (r : Root) : r.Keeps r := .inl rfl

/-! ## Histories -/

/-- A history is the start of another one, which has more roots and operations behind it and in
which some of the roots may have been confirmed. -/
structure History.RemainsIn (h h' : History) : Prop where
  roots : ∀ (g : Nat) (r : Root), h.roots[g]? = some r → ∃ r', h'.roots[g]? = some r' ∧ r.Keeps r'
  operations : h.operations <+: h'.operations

namespace History

variable {h h' h'' : History}

theorem RemainsIn.of_isPrefix (hroots : h.roots <+: h'.roots)
    (hoperations : h.operations <+: h'.operations) : h.RemainsIn h' where
  roots := by
    intro g r hr
    obtain ⟨hg, rfl⟩ := List.getElem?_eq_some_iff.mp hr
    exact ⟨_, List.prefix_iff_getElem?.mp hroots g hg, .refl _⟩
  operations := hoperations

theorem RemainsIn.refl (h : History) : h.RemainsIn h :=
  .of_isPrefix (List.prefix_refl _) (List.prefix_refl _)

theorem RemainsIn.trans (hp : h.RemainsIn h') (hp' : h'.RemainsIn h'') : h.RemainsIn h'' where
  roots := by
    intro g r hr
    obtain ⟨r', hr', hkeeps⟩ := hp.roots g r hr
    obtain ⟨r'', hr'', hkeeps'⟩ := hp'.roots g r' hr'
    exact ⟨r'', hr'', hkeeps.trans hkeeps'⟩
  operations := hp.operations.trans hp'.operations

theorem remainsIn_addRoot (h : History) (r : Root) : h.RemainsIn (h.addRoot r) :=
  .of_isPrefix (List.prefix_append _ _) (List.prefix_refl _)

theorem remainsIn_addOperation (h : History) (o : Operation) : h.RemainsIn (h.addOperation o) :=
  .of_isPrefix (List.prefix_refl _) (List.prefix_append _ _)

/-- A status is set only where a generation is pending. -/
theorem remainsIn_updateStatus (h : History) (g : Nat) (s : Status) :
    h.RemainsIn (h.updateStatus g s) where
  roots := by
    intro g' r hr
    have hset : r.Keeps (if r.status = .pending then { r with status := s } else r) := by
      split
      · next hpending =>
          cases s with
          | pending => exact .inl (by rw [← hpending])
          | committed => exact .inr rfl
      · exact .refl r
    by_cases heq : g = g'
    · exact ⟨_, by simp [updateStatus, hr, heq], hset⟩
    · exact ⟨r, by simp [updateStatus, hr, heq], .refl r⟩
  operations := List.prefix_refl _

end History

/-! ## States -/

/-- Everything that has been written in one state is still there in another one. -/
structure State.RemainsIn (s s' : State) : Prop where
  nodes : ∀ (k : Hash) (n : Node), s.nodes[k]? = some n → s'.nodes[k]? = some n
  trees : ∀ (t : TreeId) (h : History), s.trees[t]? = some h →
    ∃ h', s'.trees[t]? = some h' ∧ h.RemainsIn h'

namespace State

variable {s s' s'' : State} {t : TreeId} {h h' : History}

theorem RemainsIn.trans (hp : s.RemainsIn s') (hp' : s'.RemainsIn s'') : s.RemainsIn s'' where
  nodes := fun k n hn => hp'.nodes k n (hp.nodes k n hn)
  trees := by
    intro t h ht
    obtain ⟨h', ht', hh⟩ := hp.trees t h ht
    obtain ⟨h'', ht'', hh'⟩ := hp'.trees t h' ht'
    exact ⟨h'', ht'', hh.trans hh'⟩

theorem Alike.remainsIn (ha : s.Alike s') : s.RemainsIn s' where
  nodes := fun k n hn => ha.nodes ▸ hn
  trees := by
    intro t h ht
    obtain ⟨h', ht', hroots, hoperations⟩ := ha.exists_getElem? ht
    exact ⟨h', ht', .of_isPrefix (hroots ▸ List.prefix_refl _)
      (hoperations ▸ List.prefix_refl _)⟩

theorem RemainsIn.refl (s : State) : s.RemainsIn s := (Alike.refl s).remainsIn

/-- The first node with a hash stays. -/
theorem remainsIn_addNode (s : State) (n : Node) : s.RemainsIn (s.addNode n) where
  nodes := by
    intro k m hm
    have hmem : k ∈ s.nodes := Std.ExtTreeMap.mem_iff_isSome_getElem?.mpr (by rw [hm]; rfl)
    rw [addNode, Std.ExtTreeMap.getElem?_insertIfNew, if_neg, hm]
    rintro ⟨heq, hno⟩
    exact hno ((Std.LawfulEqCmp.eq_of_compare heq).symm ▸ hmem)
  trees := fun t h ht => ⟨h, ht, .refl h⟩

theorem remainsIn_setTree (hh : ∀ h, s.trees[t]? = some h → h.RemainsIn h') :
    s.RemainsIn (s.setTree t h') where
  nodes := fun _ _ hn => hn
  trees := by
    intro t' h ht'
    rw [getElem?_setTree]
    split
    · next heq =>
        subst heq
        exact ⟨h', rfl, hh h ht'⟩
    · exact ⟨h, ht', .refl h⟩

/-- The history of a tree is exchanged for one in which it remains. -/
theorem remainsIn_setTree_of_remainsIn (ht : s.trees[t]? = some h) (hh : h.RemainsIn h') :
    s.RemainsIn (s.setTree t h') := by
  refine remainsIn_setTree fun k hk => ?_
  rw [ht, Option.some.injEq] at hk
  exact hk ▸ hh

/-- Whatever a record is, nothing that has been written changes with it. -/
theorem remainsIn_of_apply {r : Record} (hr : s.apply r = .ok s') : s.RemainsIn s' := by
  cases apply_eq_ok.mp hr with
  | node n => exact s.remainsIn_addNode n
  | start ht _ => exact remainsIn_setTree fun h hh => by simp [ht] at hh
  | @root r h ht _ => exact remainsIn_setTree_of_remainsIn ht (h.remainsIn_addRoot r)
  | @operation t g o h ht _ => exact remainsIn_setTree_of_remainsIn ht (h.remainsIn_addOperation o)
  | @status t g status h ht _ =>
      exact remainsIn_setTree_of_remainsIn ht (h.remainsIn_updateStatus g status)

theorem remainsIn_of_applyAll {rs : List Record} (hrs : s.applyAll rs = .ok s') :
    s.RemainsIn s' := by
  induction rs generalizing s with
  | nil =>
      cases hrs
      exact .refl _
  | cons r rs ih =>
      obtain ⟨s₁, hr, hrest⟩ := applyAll_cons_eq_ok.mp hrs
      exact (remainsIn_of_apply hr).trans (ih hrest)

end State

/-! ## Stores -/

namespace Store

variable {s s' : Store}

/-- What has been written remains there after every commit, whatever its transaction holds. -/
theorem remainsIn_commit (s₀ : State) (tx : Transaction) :
    Action.Preserves (fun s => s₀.RemainsIn s.state) (commit tx) := by
  intro s hs
  rcases commit_cases tx s with ⟨e, heq⟩ | ⟨-, heq⟩ | ⟨journal, state, -, -, happly, heq⟩ <;>
    rw [heq]
  · exact hs
  · exact hs
  · exact (hs.trans (State.remainsIn_of_applyAll happly)).trans
      (State.alike_foldl_updateIndex state tx.updates).symm.remainsIn

theorem stable_remainsIn (s₀ : State) : Stable fun s => s₀.RemainsIn s.state where
  commit := fun tx _ => remainsIn_commit s₀ tx
  takeOutOfService := fun _ _ hs => hs

/-- A call, or a transaction of any kind. -/
inductive Deed
  | call (c : Call)
  | commit (tx : Transaction)

/-- The store after a deed, whether it goes through or fails. -/
def Deed.after (s : Store) : Deed → Store
  | call c => (c.perform s).2
  | commit tx => (Store.commit tx s).2

theorem remainsIn_after (s : Store) (d : Deed) : s.state.RemainsIn (d.after s).state := by
  cases d with
  | call c => exact (stable_remainsIn s.state).perform c s (.refl _)
  | commit tx => exact remainsIn_commit s.state tx s (.refl _)

/-- In whatever state a store is and whatever is done with it, everything that has been written
stays: nodes as they are, trees, and their roots and operations with new ones only behind them;
a pending root may be confirmed, and nothing else becomes of a root. -/
theorem remainsIn_of_deeds (s : Store) (deeds : List Deed) :
    s.state.RemainsIn (deeds.foldl Deed.after s).state := by
  induction deeds generalizing s with
  | nil => exact .refl _
  | cons d deeds ih => exact (remainsIn_after s d).trans (ih (d.after s))

/-- Nothing that has been written to a file is lost by opening it again. -/
theorem InFile.remainsIn_turn (hs : s.InFile) {turn : Turn} (hturn : turn.after s = .ok s') :
    s.state.RemainsIn s'.state := by
  cases turn with
  | commit tx =>
      cases hturn
      exact remainsIn_after s (.commit tx)
  | step st =>
      cases st with
      | call c =>
          cases hturn
          exact remainsIn_after s (.call c)
      | reopen => exact (hs.alike_of_reopen hturn).1.symm.remainsIn

theorem InFile.remainsIn_turns (hs : s.InFile) {turns : List Turn}
    (hrun : turns.foldlM Turn.after s = .ok s') : s.state.RemainsIn s'.state := by
  induction turns generalizing s with
  | nil =>
      cases hrun
      exact .refl _
  | cons turn turns ih =>
      rw [List.foldlM_cons] at hrun
      obtain ⟨s₁, hturn, hrest⟩ := bind_eq_ok.mp hrun
      exact (hs.remainsIn_turn hturn).trans (ih (hs.turn hturn) hrest)

end Store

end MerkleStore
