import MerkleStore.Proofs.Writes

/-!
# Batches

A batch of records is checked before anything is written, with just two numbers for each tree: how
many roots and how many operations it would have by then. Afterwards the records are applied to the
histories themselves. Both go hand in hand: a record that passes the check is one that can be
applied, and then the numbers are those of the histories again (`State.Takes`). So a batch that
passes is applied to its end (`State.exists_takesAll`), in whatever order it holds the records of
its trees, and a commit is all or nothing (`Store.commit_whole`).
-/

namespace MerkleStore

namespace History

/-- Root `i` is that of generation `i`. -/
def Contiguous (h : History) : Prop :=
  ∀ (i : Nat) (r : Root), h.roots[i]? = some r → r.generation = i

/-- There are more roots than operations. -/
def Ahead (h : History) : Prop := h.operations.length < h.roots.length

variable {h : History} {r : Root}

theorem Contiguous.start (hg : r.generation = 0) : (start r).Contiguous := by
  intro i r' hr'
  obtain ⟨hi, rfl⟩ := List.getElem?_eq_some_iff.mp hr'
  obtain rfl : i = 0 := Nat.lt_one_iff.mp hi
  exact hg

theorem Contiguous.addRoot (hc : h.Contiguous) (hg : r.generation = h.roots.length) :
    (h.addRoot r).Contiguous := by
  intro i r' hr'
  rcases Nat.lt_trichotomy i h.roots.length with hlt | rfl | hgt
  · rw [History.addRoot, List.getElem?_append_left hlt] at hr'
    exact hc i r' hr'
  · rw [History.addRoot, List.getElem?_concat_length] at hr'
    exact Option.some.inj hr' ▸ hg
  · have hnone : (h.addRoot r).roots[i]? = none := by
      rw [History.addRoot, List.getElem?_eq_none_iff, List.length_append, List.length_singleton]
      exact hgt
    rw [hnone] at hr'
    cases hr'

theorem Contiguous.updateStatus (hc : h.Contiguous) (g : Nat) (status : Status) :
    (h.updateStatus g status).Contiguous := by
  intro i r' hr'
  obtain ⟨f, hf, heq⟩ := h.getElem?_updateStatus g i status
  obtain ⟨r, hr, rfl⟩ := Option.map_eq_some_iff.mp (heq.symm.trans hr')
  rw [(hf r).2.1]
  exact hc i r hr

end History

namespace State

variable {s s' : State} {t : TreeId} {h : History} {r : Record} {rs : List Record}
  {P : History → Prop}

/-! ## Every tree -/

/-- What all histories of a state are like. -/
def Each (P : History → Prop) (s : State) : Prop :=
  ∀ (t : TreeId) (h : History), s.trees[t]? = some h → P h

theorem Each.setTree (hs : s.Each P) (hh : P h) : (s.setTree t h).Each P := by
  intro t' h' ht'
  rw [getElem?_setTree] at ht'
  split at ht'
  · exact Option.some.inj ht' ▸ hh
  · exact hs t' h' ht'

/-- States with the same roots and operations are alike in what does not depend on an index. -/
theorem Each.alike (hs : s.Each P) (ha : s.Alike s')
    (hP : ∀ h h' : History, h.roots = h'.roots → h.operations = h'.operations → P h → P h') :
    s'.Each P := by
  intro t h' ht'
  obtain ⟨h, ht, hroots, hoperations⟩ := ha.symm.exists_getElem? ht'
  exact hP h h' hroots hoperations (hs t h ht)

/-! ## Records that are taken -/

theorem Takes.contiguous (htakes : s.Takes r s') (hs : s.Each History.Contiguous) :
    s'.Each History.Contiguous := by
  cases htakes.applies with
  | node n => exact hs
  | start ht hg => exact hs.setTree (.start hg)
  | root ht hg => exact hs.setTree ((hs _ _ ht).addRoot hg)
  | @operation t g o h ht hg =>
      have hcontiguous : h.Contiguous := hs t h ht
      exact hs.setTree hcontiguous
  | status ht hg => exact hs.setTree ((hs _ _ ht).updateStatus _ _)

theorem Takes.ahead (htakes : s.Takes r s') (hs : s.Each History.Ahead) :
    s'.Each History.Ahead := by
  obtain ⟨hallowed, happlies⟩ := htakes
  cases happlies with
  | node n => exact hs
  | start ht hg => exact hs.setTree Nat.zero_lt_one
  | @root r h ht hg =>
      have hahead : h.operations.length < h.roots.length := hs _ _ ht
      refine hs.setTree ?_
      simp only [History.Ahead, History.addRoot, List.length_append, List.length_singleton]
      omega
  | @operation t g o h ht hg =>
      -- the state would take it, but the check wants its root first
      simp only [Counts.step, counts_of_tree ht] at hallowed
      split at hallowed
      · next hlt =>
          refine hs.setTree ?_
          simp only [History.Ahead, History.addOperation, List.length_append,
            List.length_singleton]
          omega
      · cases hallowed
  | @status t g status h ht hg =>
      have hahead : h.operations.length < h.roots.length := hs _ _ ht
      refine hs.setTree ?_
      simpa only [History.Ahead, History.updateStatus, List.length_modify] using hahead

theorem contiguous_of_takesAll (htakes : Along Takes s rs s') (hs : s.Each History.Contiguous) :
    s'.Each History.Contiguous := htakes.keeps Takes.contiguous hs

theorem ahead_of_takesAll (htakes : Along Takes s rs s') (hs : s.Each History.Ahead) :
    s'.Each History.Ahead := htakes.keeps Takes.ahead hs

end State

namespace Store

variable {s : Store} {tx : Transaction} {state : State}

/-- How the commit of records ends that pass the check and make a state: the file does not take
their frame and nothing has changed, or the whole frame is in the file and the state is the new
one, with its indexes changed as the transaction says. -/
inductive Settles (s : Store) (tx : Transaction) (state : State) : Except Error Unit × Store → Prop
  | void (hvoid : tx.isVoid = true) (hstate : state = s.state) : Settles s tx state (.ok (), s)
  | refused {f : Journal} {e : Error} (hf : s.journal = some f)
      (hframe : Frame.encode f.codec tx.records = .error e) : Settles s tx state (.error e, s)
  | logged {f : Journal} {frame : Bytes} {state' : State} (hf : s.journal = some f)
      (hframe : Frame.encode f.codec tx.records = .ok frame)
      (hstate : tx.updates.foldl (fun state u => state.updateIndex u.1 u.2) state = state') :
      Settles s tx state (.ok (), { s with state := state', journal := some (f.write frame) })
  | inMemory {state' : State} (hf : s.journal = none)
      (hstate : tx.updates.foldl (fun state u => state.updateIndex u.1 u.2) state = state') :
      Settles s tx state (.ok (), { s with state := state' })

theorem settles_commit (hcheck : s.state.checkBatch tx.records = .ok ())
    (happly : s.state.applyAll tx.records = .ok state) : s.Settles tx state (commit tx s) := by
  cases hvoid : tx.isVoid with
  | true =>
      obtain ⟨hrecords, -⟩ : tx.records = [] ∧ tx.updates = [] := by
        simpa [Transaction.isVoid] using hvoid
      rw [hrecords] at happly
      rw [commit, hvoid]
      exact .void hvoid (Except.ok.inj happly).symm
  | false =>
      simp only [commit, hvoid, Bool.false_eq_true, if_false, hcheck, record]
      cases hf : s.journal with
      | none =>
          simp only [happly]
          exact hf ▸ .inMemory hf rfl
      | some f =>
          cases hframe : Frame.encode f.codec tx.records with
          | error e =>
              simp only [hframe]
              exact .refused hf hframe
          | ok frame =>
              simp only [hframe, happly]
              exact .logged hf hframe rfl

/-- Records that do not pass the check are not committed, whatever index changes come with them. -/
theorem commit_of_checkBatch_eq_error {e : Error}
    (hcheck : s.state.checkBatch tx.records = .error e) : commit tx s = (.error e, s) := by
  have hvoid : tx.isVoid = false := by
    cases hrecords : tx.records with
    | nil =>
        rw [hrecords] at hcheck
        cases hcheck
    | cons r rs => simp [Transaction.isVoid, hrecords]
  simp [commit, hvoid, hcheck]

/-- No commit leaves a generation out or an operation without its root. -/
theorem each_commit (tx : Transaction) (s : Store) :
    (s.state.Each History.Contiguous → (commit tx s).2.state.Each History.Contiguous) ∧
      (s.state.Each History.Ahead → (commit tx s).2.state.Each History.Ahead) := by
  rcases commit_cases tx s with ⟨e, heq⟩ | ⟨-, heq⟩ |
    ⟨journal, state, hcheck, -, happly, heq⟩
  · rw [heq]
    exact ⟨id, id⟩
  · rw [heq]
    exact ⟨id, id⟩
  · obtain ⟨state', htakes⟩ := State.exists_takesAll hcheck
    obtain rfl := Except.ok.inj ((State.applyAll_of_takesAll htakes).symm.trans happly)
    have halike := (State.alike_foldl_updateIndex state' tx.updates).symm
    rw [heq]
    refine ⟨fun hs => (State.contiguous_of_takesAll htakes hs).alike halike ?_,
      fun hs => (State.ahead_of_takesAll htakes hs).alike halike ?_⟩
    · intro h h' hroots _ hcontiguous
      rwa [History.Contiguous, ← hroots]
    · intro h h' hroots hoperations hahead
      rwa [History.Ahead, ← hroots, ← hoperations]

/-- A transaction whose records do not pass the check changes neither the state nor the file. Of
one whose records pass each is applied, wherever the batch is cut; the state that they make has
every root at its generation and more roots than operations, if this was so before, and nothing
stops the commit once their frame is in the file. -/
theorem commit_whole (tx : Transaction) (s : Store) :
    (∀ e, s.state.checkBatch tx.records = .error e → commit tx s = (.error e, s)) ∧
    (s.state.checkBatch tx.records = .ok () → ∃ state, s.state.applyAll tx.records = .ok state ∧
      (∀ as bs, tx.records = as ++ bs → ∃ s₁, s.state.applyAll as = .ok s₁ ∧
        as.foldlM State.Counts.step s.state.counts = .ok s₁.counts ∧
        s₁.applyAll bs = .ok state) ∧
      (s.state.Each History.Contiguous → state.Each History.Contiguous) ∧
      (s.state.Each History.Ahead → state.Each History.Ahead) ∧
      s.Settles tx state (commit tx s)) ∧
    (s.state.Each History.Contiguous → (commit tx s).2.state.Each History.Contiguous) ∧
    (s.state.Each History.Ahead → (commit tx s).2.state.Each History.Ahead) := by
  refine ⟨fun e => commit_of_checkBatch_eq_error, fun hcheck => ?_, each_commit tx s⟩
  obtain ⟨state, htakes⟩ := State.exists_takesAll hcheck
  have happly := State.applyAll_of_takesAll htakes
  refine ⟨state, happly, fun as bs hcut => ?_, State.contiguous_of_takesAll htakes,
    State.ahead_of_takesAll htakes, settles_commit hcheck happly⟩
  obtain ⟨s₁, has, hbs⟩ := (hcut ▸ htakes).split
  exact ⟨s₁, State.applyAll_of_takesAll has, State.foldlM_step_of_takesAll has,
    State.applyAll_of_takesAll hbs⟩

/-- Two trees start in one batch, and the roots of one stand between those of the other; without
its first root the same batch is refused. -/
theorem commit_whole_of_sampleTree :
    let other : TreeId := ⟨.replicate 8⟩
    let n := Node.terminal (.ofPair [1] [10])
    let o := Operation.insertion ⟨n.hash, [1], [10], none, none, .pending⟩
    let rs : List Record := [.root (.empty other), .root ⟨sampleTree, 1, some n.hash, .pending⟩,
      .status other 0 .committed, .node n, .operation sampleTree 1 o]
    let s : Store := .create sampleCodec
    (∃ state frame, s.state.applyAll (.root (.empty sampleTree) :: rs) = .ok state ∧
      state.Each History.Contiguous ∧ state.Each History.Ahead ∧
      Frame.encode sampleCodec (.root (.empty sampleTree) :: rs) = .ok frame ∧
      commit ⟨.root (.empty sampleTree) :: rs, ∅, []⟩ s =
        (.ok (), { s with
          state := state, journal := some ((Journal.create sampleCodec).write frame) })) ∧
    ∃ e, s.state.checkBatch rs = .error e ∧ commit ⟨rs, ∅, []⟩ s = (.error e, s) := by
  intro other n o rs s
  have hnone (P : History → Prop) : s.state.Each P := by
    intro t h ht
    simp [s, create, State.empty] at ht
  have hcheck : s.state.checkBatch (.root (.empty sampleTree) :: rs) = .ok () := by
    decide +kernel
  have hfits :
      (Frame.encode sampleCodec (.root (.empty sampleTree) :: rs)).toOption.isSome = true := by
    decide +kernel
  have hgap : s.state.checkBatch rs =
      .error (.invalidArgument (.generationExpected sampleTree 0 1)) := by
    decide +kernel
  obtain ⟨-, hwhole, -⟩ := commit_whole ⟨.root (.empty sampleTree) :: rs, ∅, []⟩ s
  obtain ⟨state, happly, -, hcontiguous, hahead, hsettles⟩ := hwhole hcheck
  refine ⟨?_, _, hgap, (commit_whole ⟨rs, ∅, []⟩ s).1 _ hgap⟩
  generalize commit _ s = result at hsettles ⊢
  cases hsettles with
  | void hvoid => cases hvoid
  | @refused f e hf hframe =>
      obtain rfl : .create sampleCodec = f := Option.some.inj hf
      rw [show Frame.encode sampleCodec _ = _ from hframe] at hfits
      cases hfits
  | @logged f frame state' hf hframe hstate =>
      obtain rfl : .create sampleCodec = f := Option.some.inj hf
      obtain rfl : state = state' := hstate
      exact ⟨state, frame, happly, hcontiguous (hnone _), hahead (hnone _), hframe, rfl⟩
  | inMemory hf => cases hf

end Store

end MerkleStore
