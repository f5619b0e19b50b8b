import MerkleStore.Proofs.Preserving
import MerkleStore.Proofs.Writes

/-!
# What has been committed

The check of a batch and the application of its records agree, so that a store in a file is
always what the frames of the file make (`Store.InFile`), whatever has been committed to
it. Opening the file again goes through if the walk under the latest root of every tree
does, and gives the nodes, roots and operations of the store (`reopen_of_turns`). The check
of a batch does not look for the nodes of new roots, so that a root can be committed after
which the file cannot be opened any more (`unopenable_after_commit`).
-/

namespace MerkleStore

/-! ## Walks that fail -/

/-- A node that is not stored, or that lies below itself, is all that a walk fails with. -/
theorem NodeMap.failure_walkWithin_cases {nodes : NodeMap} {first : Side} {skip : Hash → Bool}
    {depth : Nat} {h : Hash} {e : Error}
    (hf : (nodes.walkWithin first skip depth h).failure = some e) :
    e = .endless ∨ ∃ k, nodes[k]? = none ∧ e = .notFound (.node k) := by
  induction depth generalizing h with
  | zero =>
      cases hf
      exact .inl rfl
  | succ depth ih =>
      rw [walkWithin] at hf
      split at hf
      · cases hf
      · split at hf
        · next hnone =>
            cases hf
            exact .inr ⟨h, hnone, rfl⟩
        · cases hf
        · rcases Trace.failure_append_eq_some hf with hhere | hbelow
          · cases hhere
          · rcases Trace.failure_append_eq_some hbelow with hleft | hright
            · exact ih hleft
            · exact ih hright

/-! ## Indexes that cannot be made again -/

namespace State

variable {s s₀ : State}

/-- The walk under the latest root of every tree comes to its end. -/
def IsWhole (s : State) : Prop :=
  ∀ (t : TreeId) (h : History), s.trees[t]? = some h →
    ∀ top, h.latest.node = some top → (s.nodes.preorder top).failure = none

theorem IsWhole.alike (hw : s.IsWhole) (ha : s₀.Alike s) : s₀.IsWhole := by
  intro t h ht top htop
  obtain ⟨h', ht', hr, -⟩ := ha.exists_getElem? ht
  rw [ha.nodes]
  refine hw t h' ht' top ?_
  simp only [History.latest, hr] at htop ⊢
  exact htop

/-- What an index fails with is what the walk under its root fails with. -/
theorem indexUnder_eq_error {nodes : NodeMap} {top : Option Hash} {e : Error}
    (he : indexUnder nodes top = .error e) :
    ∃ h, top = some h ∧ (nodes.preorder h).failure = some e := by
  cases top with
  | none => cases he
  | some h =>
      refine ⟨h, rfl, ?_⟩
      cases hf : (nodes.preorder h).failure with
      | none => simp [indexUnder, Trace.nodes, hf, bind, Except.bind, pure, Except.pure] at he
      | some e' =>
          simp only [indexUnder, Trace.nodes, hf, bind, Except.bind, Except.error.injEq] at he
          exact congrArg some he

theorem indexUnder_of_failure {nodes : NodeMap} {h : Hash} {e : Error}
    (hf : (nodes.preorder h).failure = some e) : indexUnder nodes (some h) = .error e := by
  simp only [indexUnder, Trace.nodes, hf, bind, Except.bind]

theorem exists_indexUnder_iff {nodes : NodeMap} {top : Option Hash} :
    (∃ i, indexUnder nodes top = .ok i) ↔
      ∀ h, top = some h → (nodes.preorder h).failure = none := by
  constructor
  · rintro ⟨i, hi⟩ h rfl
    cases hf : (nodes.preorder h).failure with
    | none => rfl
    | some e =>
        rw [indexUnder_of_failure hf] at hi
        cases hi
  · intro hw
    cases hindex : indexUnder nodes top with
    | ok i => exact ⟨i, rfl⟩
    | error e =>
        obtain ⟨h, htop, hfails⟩ := indexUnder_eq_error hindex
        rw [hw h htop] at hfails
        cases hfails

theorem withIndex_eq_error {nodes : NodeMap} {x : TreeId × History} {e : Error} :
    withIndex nodes x = .error e ↔ indexUnder nodes x.2.latest.node = .error e := by
  rw [withIndex]
  cases indexUnder nodes x.2.latest.node <;> simp [bind, Except.bind, pure, Except.pure]

theorem exists_withIndex_iff {nodes : NodeMap} {x : TreeId × History} :
    (∃ y, withIndex nodes x = .ok y) ↔ ∃ i, indexUnder nodes x.2.latest.node = .ok i := by
  rw [withIndex]
  cases indexUnder nodes x.2.latest.node <;> simp [bind, Except.bind, pure, Except.pure]

/-- The indexes of a state can be made again if it is whole. -/
theorem exists_reindex_iff : (∃ s', s.reindex = .ok s') ↔ s.IsWhole := by
  have hall : (∃ s', s.reindex = .ok s') ↔
      ∃ trees, s.trees.toList.mapM (withIndex s.nodes) = .ok trees := by
    rw [reindex_eq_mapM]
    cases s.trees.toList.mapM (withIndex s.nodes) <;> simp [Except.bind]
  simp only [hall, exists_mapM_eq_ok, exists_withIndex_iff, exists_indexUnder_iff, Prod.forall,
    Std.ExtTreeMap.mem_toList_iff_getElem?_eq_some, IsWhole]

theorem IsWhole.exists_reindex (hw : s.IsWhole) (ha : s₀.Alike s) :
    ∃ s', s₀.reindex = .ok s' ∧ s'.Alike s :=
  have hindexes := fun t h ht => exists_indexUnder_iff.mpr (hw.alike ha t h ht)
  ⟨s₀.remadeAll, reindex_eq hindexes, (alike_remadeAll s₀).trans ha⟩

/-- The indexes of a state that is not whole cannot be made again. -/
theorem reindex_of_not_isWhole (hw : ¬ s.IsWhole) (ha : s₀.Alike s) :
    ∃ e, s₀.reindex = .error e ∧
      (e = .endless ∨ ∃ k, s.nodes[k]? = none ∧ e = .notFound (.node k)) := by
  cases hreindex : s₀.reindex with
  | ok s' => exact absurd ((exists_reindex_iff.mp ⟨s', hreindex⟩).alike ha.symm) hw
  | error e =>
      obtain ⟨-, x, -, -, -, hx⟩ := mapM_eq_error.mp (reindex_eq_error.mp hreindex)
      obtain ⟨top, -, hfails⟩ := indexUnder_eq_error (withIndex_eq_error.mp hx)
      exact ⟨e, rfl, ha.nodes ▸ NodeMap.failure_walkWithin_cases hfails⟩

end State

/-- If the indexes cannot be made again, nothing is recovered. -/
theorem Journal.Keeps.exists_error_of_reindex {f : Journal} {s : State} (hk : f.Keeps s)
    {p : Error → Prop} (hs : ∀ s₀ : State, s₀.Alike s → ∃ e, s₀.reindex = .error e ∧ p e) :
    ∃ e, recover f.codec f.bytes = .error e ∧ p e := by
  obtain ⟨batches, frames, s₀, hframes, hbytes, -, hbatches, halike⟩ := hk
  obtain ⟨e, hreindex, hp⟩ := hs s₀ halike
  refine ⟨e, ?_, hp⟩
  rw [hbytes, recover_flatten hframes, hbatches]
  simp only [Except.bind, hreindex, Except.map]

/-! ## Stores in files -/

namespace Store

variable {s s' : Store}

/-- A store is what the frames of its file make, but for its indexes. -/
def InFile (s : Store) : Prop := ∃ f, s.journal = some f ∧ f.Keeps s.state

theorem InFile.create (z : Codec) : (create z).InFile := ⟨.create z, rfl, .create z⟩

/-- Whatever a transaction holds, a commit keeps the file and the store together. -/
theorem InFile.commit (tx : Transaction) : Action.Preserves InFile (commit tx) := by
  rintro s ⟨f, hf, hkeeps⟩
  rcases commit_cases tx s with ⟨e, heq⟩ | ⟨-, heq⟩ | ⟨journal, state, -, hrecord, happly, heq⟩ <;>
    rw [heq]
  · exact ⟨f, hf, hkeeps⟩
  · exact ⟨f, hf, hkeeps⟩
  · rcases record_eq_ok hrecord with ⟨hnone, -⟩ | ⟨f', frame, hf', hframe, rfl⟩
    · rw [hf] at hnone
      cases hnone
    · rw [hf, Option.some.injEq] at hf'
      subst hf'
      exact ⟨_, rfl, hkeeps.write hframe happly
        (State.alike_foldl_updateIndex state tx.updates).symm⟩

theorem InFile.stable : Stable InFile where
  commit := fun tx _ => InFile.commit tx
  takeOutOfService := fun _ _ hs => hs

/-- A file opens if the store is whole, and then gives the same store but for its indexes. -/
theorem InFile.exists_reopen (hs : s.InFile) (hw : s.state.IsWhole) :
    ∃ s', s.reopen = .ok s' ∧ s'.state.Alike s.state ∧ s'.journal = s.journal := by
  obtain ⟨f, hf, hkeeps⟩ := hs
  obtain ⟨state, hrecover, halike⟩ :=
    hkeeps.exists_recover_of_reindex fun _ ha => hw.exists_reindex ha
  refine ⟨⟨state, some f, ∅⟩, ?_, halike, hf.symm⟩
  simp only [reopen, hf, ofFile, hrecover, bind, Except.bind, pure, Except.pure]

/-- A file does not open if the store is not whole. -/
theorem InFile.reopen_of_not_isWhole (hs : s.InFile) (hw : ¬ s.state.IsWhole) :
    ∃ e, s.reopen = .error e ∧
      (e = .endless ∨ ∃ k, s.state.nodes[k]? = none ∧ e = .notFound (.node k)) := by
  obtain ⟨f, hf, hkeeps⟩ := hs
  obtain ⟨e, hrecover, he⟩ :=
    hkeeps.exists_error_of_reindex fun _ ha => State.reindex_of_not_isWhole hw ha
  refine ⟨e, ?_, he⟩
  simp only [reopen, hf, ofFile, hrecover, bind, Except.bind]

/-- A file that opens gives the same store but for its indexes. -/
theorem InFile.alike_of_reopen (hs : s.InFile) (hreopen : s.reopen = .ok s') :
    s'.state.Alike s.state ∧ s'.journal = s.journal := by
  by_cases hw : s.state.IsWhole
  · obtain ⟨s₁, heq, hsame⟩ := hs.exists_reopen hw
    rw [hreopen, Except.ok.injEq] at heq
    exact heq ▸ hsame
  · obtain ⟨e, heq, -⟩ := hs.reopen_of_not_isWhole hw
    rw [hreopen] at heq
    cases heq

theorem InFile.reopen (hs : s.InFile) (hreopen : s.reopen = .ok s') : s'.InFile := by
  obtain ⟨halike, hjournal⟩ := hs.alike_of_reopen hreopen
  obtain ⟨f, hf, hkeeps⟩ := hs
  exact ⟨f, hjournal.trans hf, hkeeps.congr halike.symm⟩

end Store

/-! ## Transactions of any kind -/

/-- What can be done with a store in a file, transactions of any kind included. -/
inductive Turn
  | commit (tx : Transaction)
  | step (step : Step)

/-- The store after a turn. -/
def Turn.after (s : Store) : Turn → Except Error Store
  | commit tx => .ok (Store.commit tx s).2
  | step st => st.after s

theorem Store.InFile.turn {s s' : Store} (hs : s.InFile) {turn : Turn}
    (hturn : turn.after s = .ok s') : s'.InFile := by
  cases turn with
  | commit tx =>
      cases hturn
      exact Store.InFile.commit tx s hs
  | step st =>
      cases st with
      | call c =>
          cases hturn
          exact Store.InFile.stable.perform c s hs
      | reopen => exact hs.reopen hturn

theorem Store.InFile.turns {s s' : Store} (hs : s.InFile) {turns : List Turn}
    (hrun : turns.foldlM Turn.after s = .ok s') : s'.InFile := by
  induction turns generalizing s with
  | nil =>
      cases hrun
      exact hs
  | cons turn turns ih =>
      rw [List.foldlM_cons] at hrun
      obtain ⟨s₁, hturn, hrest⟩ := bind_eq_ok.mp hrun
      exact ih (hs.turn hturn) hrest

/-- Whatever has been committed to a file, or refused, opening it again goes through exactly
if the walk under the latest root of every tree does: it then gives the nodes, roots and
operations of the store, and else it fails with what a walk fails with. -/
theorem reopen_of_turns {z : Codec} {turns : List Turn} {s : Store}
    (hrun : turns.foldlM Turn.after (.create z) = .ok s) :
    (s.state.IsWhole →
      ∃ s', s.reopen = .ok s' ∧ s'.state.Alike s.state ∧ s'.journal = s.journal) ∧
    (¬ s.state.IsWhole → ∃ e, s.reopen = .error e ∧
      (e = .endless ∨ ∃ k, s.state.nodes[k]? = none ∧ e = .notFound (.node k))) :=
  have hs := (Store.InFile.create z).turns hrun
  ⟨hs.exists_reopen, hs.reopen_of_not_isWhole⟩

/-- Transactions of which one is refused, and that leave no root without its nodes. -/
def sampleTurns : List Turn :=
  let leaf := Terminal.ofPair [1] [10]
  [.commit (Transaction.empty.add (.root (.empty sampleTree))),
    .commit (((Transaction.empty.addNode ∅ (.terminal leaf)).add
      (.root ⟨sampleTree, 1, some leaf.hash, .pending⟩)).add
        (.operation sampleTree 1 (.insertion ⟨leaf.hash, [1], [10], none, none, .pending⟩))),
    .commit (Transaction.empty.add (.status sampleTree 2 .committed)),
    .step .reopen,
    .commit (Transaction.empty.add (.status sampleTree 1 .committed))]

/-- What is left of them after a last opening is all that has been committed. -/
theorem reopen_of_sampleTurns :
    ∃ s s', sampleTurns.foldlM Turn.after (.create sampleCodec) = .ok s ∧ s.state.IsWhole ∧
      s.reopen = .ok s' ∧ s'.state.Alike s.state ∧ s'.journal = s.journal := by
  have heval : (do
      let s ← sampleTurns.foldlM Turn.after (.create sampleCodec)
      s.reopen.map fun _ => () : Except Error Unit).toOption = some () := by decide +kernel
  obtain ⟨s, hrun, hreopen⟩ := bind_eq_ok.mp (eq_ok_of_toOption heval)
  obtain ⟨hopens, hfails⟩ := reopen_of_turns hrun
  have hw : s.state.IsWhole := by
    by_contra hno
    obtain ⟨e, he, -⟩ := hfails hno
    rw [he] at hreopen
    cases hreopen
  obtain ⟨s', hs'⟩ := hopens hw
  exact ⟨s, s', hrun, hw, hs'⟩

/-- A root without its node is committed, and the file cannot be opened any more. -/
theorem unopenable_after_commit :
    let missing := Hash.terminal [1] [10]
    let tx := Transaction.empty.add (.root ⟨sampleTree, 0, some missing, .pending⟩)
    ∃ s, Store.commit tx (.create sampleCodec) = (.ok (), s) ∧
      s.reopen = .error (.notFound (.node missing)) := by
  intro missing tx
  have hok : (Store.commit tx (.create sampleCodec)).1.toOption = some () := by decide +kernel
  have hfails : (Store.commit tx (.create sampleCodec)).2.reopen.map (fun _ => ()) =
      .error (.notFound (.node missing)) := by decide +kernel
  refine ⟨(Store.commit tx (.create sampleCodec)).2, Prod.fst_eq_iff.mp (eq_ok_of_toOption hok), ?_⟩
  cases hreopen : (Store.commit tx (.create sampleCodec)).2.reopen with
  | error e =>
      rw [hreopen] at hfails
      rw [Except.error.inj hfails]
  | ok s =>
      rw [hreopen] at hfails
      cases hfails

end MerkleStore
