import MerkleStore.Proofs.Batches
import MerkleStore.Proofs.Ranges

/-!
# Operations that are missing

The check of a batch lets no operation come before its root, but a root may stay without its
operation. So a tree can have fewer operations than generations, and then a range of operations is
not refused although it ends behind the last of them: reading it runs out of bounds
(`Store.Readable`). How far a tree can be read is told by the records that have been committed for
it, whatever the batches were like (`readable_of_accepted`).
-/

namespace MerkleStore

namespace Record

/-- A new generation of a tree. -/
def isRootOf (t : TreeId) : Record → Bool
  | root r => r.tree == t
  | node _ | operation .. | status .. => false

/-- An operation of a tree. -/
def isOperationOf (t : TreeId) : Record → Bool
  | operation t' _ _ => t' == t
  | node _ | root _ | status .. => false

end Record

namespace Store

/-- What comes of ranges of operations in a tree for which so many roots and operations have been
written. -/
structure Readable (s : Store) (t : TreeId) (roots operations : Nat) : Prop where
  latest : s.latestGeneration t = .ok (roots - 1)
  ahead : operations < roots
  refused : ∀ first last, last < first ∨ roots ≤ last →
    s.operations t first last = .error (.invalidRange first last (roots - 1))
  given : ∀ first last, first ≤ last → last ≤ operations →
    ∃ os, s.operations t first last = .ok os ∧ os.length = last - first
  beyond : ∀ first last, first ≤ last → operations < last → last < roots →
    s.operations t first last = .error .outOfBounds

/-- A transaction is accepted. -/
def Accepts (s : Store) (tx : Transaction) (s' : Store) : Prop := commit tx s = (.ok (), s')

end Store

namespace State

variable {s s' : State} {t : TreeId} {h : History} {r : Record} {rs : List Record}

/-- A record counts for the tree it is about. -/
theorem Counts.step_eq_ok {c c' : Counts} (hstep : c.step r = .ok c') (t : TreeId) :
    c' t = ((c t).1 + (r.isRootOf t).toNat, (c t).2 + (r.isOperationOf t).toNat) := by
  cases r with
  | node n =>
      cases hstep
      rfl
  | root r =>
      simp only [step] at hstep
      split at hstep <;> cases hstep
      by_cases ht : t = r.tree
      · subst ht
        simp [set, Record.isRootOf, Record.isOperationOf]
      · have hother : (r.tree == t) = false := beq_false_of_ne (Ne.symm ht)
        simp [set, Record.isRootOf, Record.isOperationOf, ht, hother]
  | operation t' g o =>
      simp only [step] at hstep
      split at hstep <;> cases hstep
      by_cases ht : t = t'
      · subst ht
        simp [set, Record.isRootOf, Record.isOperationOf]
      · have hother : (t' == t) = false := beq_false_of_ne (Ne.symm ht)
        simp [set, Record.isRootOf, Record.isOperationOf, ht, hother]
  | status t' g status =>
      simp only [step] at hstep
      split at hstep <;> cases hstep
      rfl

/-- The check of a batch counts its records, tree by tree. -/
theorem Counts.foldlM_step_eq_ok {c c' : Counts} (hsteps : rs.foldlM step c = .ok c')
    (t : TreeId) : c' t =
      ((c t).1 + rs.countP (Record.isRootOf t), (c t).2 + rs.countP (Record.isOperationOf t)) := by
  induction rs generalizing c with
  | nil =>
      cases hsteps
      rfl
  | cons r rs ih =>
      rw [List.foldlM_cons] at hsteps
      obtain ⟨c₁, hstep, hrest⟩ := bind_eq_ok.mp hsteps
      rw [ih hrest, Counts.step_eq_ok hstep t]
      cases hroot : r.isRootOf t <;> cases hoperation : r.isOperationOf t <;>
        simp [hroot, hoperation] <;> omega

end State

namespace Store

variable {s s' s₀ : Store} {t : TreeId} {h : History} {tx : Transaction}
  {txs : List Transaction}

/-- An accepted transaction leaves the numbers that its check has counted. -/
theorem Accepts.counts (htx : s.Accepts tx s') :
    tx.records.foldlM State.Counts.step s.state.counts = .ok s'.state.counts := by
  rcases commit_cases tx s with ⟨e, heq⟩ | ⟨hvoid, heq⟩ |
    ⟨journal, state, hcheck, -, happly, heq⟩ <;> rw [Accepts, heq] at htx <;> cases htx
  · obtain ⟨hrecords, -⟩ : tx.records = [] ∧ tx.updates = [] := by
      simpa [Transaction.isVoid] using hvoid
    rw [hrecords]
    rfl
  · obtain ⟨state', htakes⟩ := State.exists_takesAll hcheck
    obtain rfl := Except.ok.inj ((State.applyAll_of_takesAll htakes).symm.trans happly)
    rw [State.foldlM_step_of_takesAll htakes]
    exact congrArg Except.ok (State.alike_foldl_updateIndex state' tx.updates).symm.counts_eq

/-- Accepted transactions leave every tree with as many roots and operations as they hold. -/
theorem counts_of_accepted (hrow : Along Accepts s txs s') (t : TreeId) :
    s'.state.counts t =
      ((s.state.counts t).1 +
          (txs.flatMap Transaction.records).countP (Record.isRootOf t),
        (s.state.counts t).2 +
          (txs.flatMap Transaction.records).countP (Record.isOperationOf t)) := by
  induction hrow with
  | nil s => rfl
  | cons htx _ ih =>
      rw [ih, State.Counts.foldlM_step_eq_ok htx.counts t]
      simp only [List.flatMap_cons, List.countP_append, Nat.add_assoc]

theorem Accepts.quarantined (htx : s.Accepts tx s') : s'.quarantined = s.quarantined := by
  rcases commit_cases tx s with ⟨e, heq⟩ | ⟨-, heq⟩ | ⟨journal, state, -, -, -, heq⟩ <;>
    rw [Accepts, heq] at htx <;> cases htx <;> rfl

/-- An accepted transaction leaves no generation out and no operation without its root. -/
theorem Accepts.each (htx : s.Accepts tx s') :
    (s.state.Each History.Contiguous → s'.state.Each History.Contiguous) ∧
      (s.state.Each History.Ahead → s'.state.Each History.Ahead) := by
  have hsnd : (commit tx s).2 = s' := congrArg Prod.snd htx
  exact hsnd ▸ each_commit tx s

theorem IsNew.each (hs : s.IsNew) (P : History → Prop) : s.state.Each P := by
  rcases hs with rfl | ⟨z, rfl⟩ <;> simp [State.Each, volatile, create, State.empty]

theorem IsNew.isOutOfService (hs : s.IsNew) (t : TreeId) : s.isOutOfService t = false := by
  rcases hs with rfl | ⟨z, rfl⟩ <;> simp [Store.isOutOfService, volatile, create]

theorem IsNew.counts (hs : s.IsNew) (t : TreeId) : s.state.counts t = (0, 0) := by
  rcases hs with rfl | ⟨z, rfl⟩ <;> simp [State.counts, volatile, create, State.empty]

/-- A history is readable as far as its operations go. -/
theorem readable_of_history (hs : s.servedTree t = .ok h) (hc : h.Contiguous) (ha : h.Ahead) :
    s.Readable t h.roots.length h.operations.length := by
  have hlatest : h.latest.generation = h.roots.length - 1 := hc _ _ h.getElem?_latest
  have hahead : h.operations.length < h.roots.length := ha
  refine ⟨?_, ha, fun first last hrange => ?_, fun first last hle hlast => ?_,
    fun first last hle hmissing hlast => ?_⟩
  · rw [latestGeneration, latestRoot_of_servedTree hs]
    exact congrArg Except.ok hlatest
  · rw [← hlatest]
    exact operations_of_outside hs (by omega)
  · refine ⟨_, operations_of_logged hs hle (by omega) hlast, ?_⟩
    simp only [List.length_drop, List.length_take, History.presented, List.length_zipWith,
      List.length_tail]
    omega
  · simp only [operations, hs, bind, Except.bind]
    rw [if_neg (by omega), if_pos hmissing]
    rfl

/-- No range runs out of bounds if every generation but the first has its operation, and only
then. -/
theorem Readable.safe_iff {roots operations : Nat} (hr : s.Readable t roots operations) :
    (∀ first last, s.operations t first last ≠ .error .outOfBounds) ↔ operations + 1 = roots := by
  have hahead := hr.ahead
  constructor
  · intro hsafe
    by_contra hne
    -- even the empty range behind the last root is beyond the operations then
    exact hsafe (roots - 1) (roots - 1)
      (hr.beyond _ _ (Nat.le_refl _) (by omega) (by omega))
  · intro heq first last
    by_cases hrange : last < first ∨ roots ≤ last
    · rw [hr.refused first last hrange]
      simp
    · obtain ⟨os, hos, -⟩ := hr.given first last (by omega) (by omega)
      rw [hos]
      simp

end Store

/-- After any accepted transactions a tree is there if they hold a root of it, and is readable as
far as they hold operations of it; it can be read without running out of bounds exactly if they
hold one for each generation but the first. -/
theorem readable_of_accepted {s₀ s : Store} (hnew : s₀.IsNew) {txs : List Transaction}
    (hrow : Along Store.Accepts s₀ txs s) (t : TreeId) :
    let roots := (txs.flatMap Transaction.records).countP (Record.isRootOf t)
    let operations := (txs.flatMap Transaction.records).countP (Record.isOperationOf t)
    (s.hasTree t = true ↔ 0 < roots) ∧
      (s.hasTree t = true → s.Readable t roots operations ∧
        ((∀ first last, s.operations t first last ≠ .error .outOfBounds) ↔
          operations + 1 = roots)) := by
  intro roots operations
  -- the counts tell how long the two lists are, the invariants which generations they are about
  have hcounts : s.state.counts t = (roots, operations) := by
    rw [Store.counts_of_accepted hrow, hnew.counts, Nat.zero_add, Nat.zero_add]
  have hcontiguous : s.state.Each History.Contiguous :=
    hrow.keeps (P := fun s => s.state.Each History.Contiguous)
      (fun htx => (Store.Accepts.each htx).1) (hnew.each _)
  have hahead : s.state.Each History.Ahead :=
    hrow.keeps (P := fun s => s.state.Each History.Ahead)
      (fun htx => (Store.Accepts.each htx).2) (hnew.each _)
  have hserved : s.isOutOfService t = false :=
    hrow.keeps (P := fun s => s.isOutOfService t = false)
      (fun htx hs => by rwa [Store.isOutOfService, Store.Accepts.quarantined htx])
      (hnew.isOutOfService t)
  cases ht : s.state.trees[t]? with
  | none =>
      have hno : s.hasTree t = false := by
        rw [← Bool.not_eq_true, Store.hasTree_iff, ht]
        simp
      rw [State.counts_of_none ht, Prod.mk.injEq] at hcounts
      simp [hno, ← hcounts.1]
  | some h =>
      have hknown : s.hasTree t = true := Store.hasTree_iff.mpr ⟨h, ht⟩
      rw [State.counts_of_tree ht, Prod.mk.injEq] at hcounts
      have hr := Store.readable_of_history (Store.servedTree_eq_ok.mpr ⟨hserved, ht⟩)
        (hcontiguous t h ht) (hahead t h ht)
      rw [hcounts.1, hcounts.2] at hr
      exact ⟨iff_of_true hknown (Nat.zero_lt_of_lt hr.ahead), fun _ => ⟨hr, hr.safe_iff⟩⟩

/-- Two transactions, of which the second brings a root without its operation. -/
def unloggedTransactions : List Transaction :=
  let leaf := Terminal.ofPair [1] [10]
  [(((Transaction.empty.add (.root (.empty sampleTree))).addNode ∅ (.terminal leaf)).add
      (.root ⟨sampleTree, 1, some leaf.hash, .pending⟩)).add
        (.operation sampleTree 1 (.insertion ⟨leaf.hash, [1], [10], none, none, .pending⟩)),
    (Transaction.empty.add (.root ⟨sampleTree, 2, none, .pending⟩)).add
      (.status sampleTree 1 .committed)]

/-- After them a generation can be read that has its operation, and the one beyond cannot. -/
theorem readable_of_unloggedTransactions :
    ∃ s, Along Store.Accepts (.create sampleCodec) unloggedTransactions s ∧
      s.Readable sampleTree 3 1 ∧ s.operations sampleTree 0 2 = .error .outOfBounds := by
  have hfirst :
      (Store.commit unloggedTransactions[0] (.create sampleCodec)).1.toOption = some () := by
    decide +kernel
  have hsecond : (Store.commit unloggedTransactions[1]
      (Store.commit unloggedTransactions[0] (.create sampleCodec)).2).1.toOption = some () := by
    decide +kernel
  have hroots : (unloggedTransactions.flatMap Transaction.records).countP
      (Record.isRootOf sampleTree) = 3 := by decide +kernel
  have hoperations : (unloggedTransactions.flatMap Transaction.records).countP
      (Record.isOperationOf sampleTree) = 1 := by decide +kernel
  have hrow : Along Store.Accepts (.create sampleCodec) unloggedTransactions _ :=
    .cons (Prod.fst_eq_iff.mp (eq_ok_of_toOption hfirst))
      (.cons (Prod.fst_eq_iff.mp (eq_ok_of_toOption hsecond)) (.nil _))
  obtain ⟨hknown, hreadable⟩ := readable_of_accepted (.inr ⟨_, rfl⟩) hrow sampleTree
  rw [hroots] at hknown
  obtain ⟨hr, -⟩ := hreadable (hknown.mpr (by decide))
  rw [hroots, hoperations] at hr
  exact ⟨_, hrow, hr, hr.beyond 0 2 (by decide) (by decide) (by decide)⟩

/-- A transaction is accepted that brings a root without its operation, and then even the empty
range at the latest generation runs out of bounds. -/
theorem outOfBounds_after_commit :
    let tx := (Transaction.empty.add (.root (.empty sampleTree))).add
      (.root ⟨sampleTree, 1, none, .pending⟩)
    ∃ s, Store.commit tx .volatile = (.ok (), s) ∧ s.latestGeneration sampleTree = .ok 1 ∧
      s.operations sampleTree 1 1 = .error .outOfBounds ∧
      s.operations sampleTree 0 1 = .error .outOfBounds := by
  intro tx
  have hok : (Store.commit tx .volatile).1.toOption = some () := by decide +kernel
  refine ⟨(Store.commit tx .volatile).2, Prod.fst_eq_iff.mp (eq_ok_of_toOption hok), ?_, ?_, ?_⟩
  · exact eq_ok_of_toOption (by decide +kernel)
  · decide +kernel
  · decide +kernel

end MerkleStore
