import MerkleStore.Proofs.Replication

/-!
# What a replication reports

A report is about what has happened to the copy: the generation before, the root
afterwards and the generations that have been confirmed are those of the local store,
whatever the server says (`Replica.report_of_run`). The generation the report gives for
the copy afterwards is the one the server has named at first. It is the right one if and
only if the server has sent as many operations as it was asked for, and nothing makes
sure of that (`Replica.report_overstates`).
-/

namespace MerkleStore.Replica

variable {peer : Peer} {c c' : Session} {t : TreeId} {root : Hash} {report : Report}

/-- A report says what has happened to a copy. -/
structure Report.Tells (report : Report) (t : TreeId) (root : Hash) (s s' : Store) : Prop where
  tree : report.tree = t
  /-- The copy was at this generation before, or there was none. -/
  first : if s.hasTree t then s.latestGeneration t = .ok report.first else report.first = 0
  root : report.root = root
  latest : ∃ r, s'.latestRoot t = .ok r ∧ r.node = some report.root
  ascending : report.confirmed.Pairwise (· < ·)
  /-- The generations are those that have been confirmed in between. -/
  confirmed : ∀ g, g ∈ report.confirmed ↔ s'.state.IsCommitted t g ∧ ¬ s.state.IsCommitted t g

/-- What the report of a replication says, and where the copy is afterwards. -/
theorem tells_of_replicate (ho : c.store.Orderly)
    (hrep : replicate t root peer c = (.ok report, c')) :
    report.Tells t root c.store c'.store ∧ report.first ≤ report.last ∧
      ∃ asked os, c'.sent = asked ++ [(Request.operations t report.first report.last).text] ∧
        peer.answer asked (.operations t report.first report.last) readOperations = .ok os ∧
        c'.store.latestGeneration t = .ok (report.first + os.length) := by
  obtain ⟨s, sent, hopened, hsent, ⟨e, -, heq⟩ | ⟨v, -, hv, heq⟩⟩ := replicate_cases ho t root peer
  · simp [hrep] at heq
  · have hos := hopened.orderly ho
    rcases conclude_cases hos hv root with ⟨e, i, hc, -⟩ |
      ⟨s', hc, hreplayed, -, hconfirmed, htop⟩
    · rw [heq, hc] at hrep
      cases hrep
    · rw [heq, hc, Prod.mk.injEq, Except.ok.injEq] at hrep
      obtain ⟨rfl, rfl⟩ := hrep
      obtain ⟨h, hs, hfirst, -⟩ := id hv.copy
      obtain ⟨h₁, hs₁, happended⟩ := hreplayed.servedTree hs
      obtain ⟨h₂, hs₂, hhistory⟩ := hconfirmed.servedTree hs₁
      have ht := Store.tree_of_servedTree hs
      have ht₁ := Store.tree_of_servedTree hs₁
      obtain ⟨asked, -, hasked, hanswer⟩ := hv.operations
      refine ⟨⟨rfl, ?_, rfl, ?_, hv.pairwise_confirmed hos, fun g => ?_⟩, hv.first_le, asked,
        v.operations, hasked, hanswer, ?_⟩
      · -- a copy that has just been created is at generation 0
        rcases hopened.cases with rfl | ⟨hno, hstate⟩
        · rw [if_pos (Store.hasTree_iff.mpr ⟨h, ht⟩), Store.latestGeneration,
            Store.latestRoot_of_servedTree hs]
          exact congrArg Except.ok hfirst
        · rw [hstate, State.getElem?_setTree, if_pos rfl, Option.some.injEq] at ht
          rw [if_neg (by rw [Store.hasTree_iff, hno]; simp)]
          exact hfirst.symm.trans (ht ▸ rfl)
      · exact ⟨h₂.latest, Store.latestRoot_of_servedTree hs₂,
          hhistory.latest.2.trans (htop h₁ hs₁)⟩
      · have hsame : (Store.replay t v.operations s).2.state.IsCommitted t g ↔
            c.store.state.IsCommitted t g := by
          rw [hreplayed.appends.isCommitted_iff ht, hopened.isCommitted_iff]
        rw [hconfirmed.state.isCommitted_iff ht₁, hsame]
        constructor
        · intro hg
          obtain ⟨r, -, hr, hpending, -⟩ := hv.exists_of_mem_confirmed hos hs happended hg
          refine ⟨.inr ⟨hg, (List.getElem?_eq_some_iff.mp hr).1⟩, fun hbefore => ?_⟩
          obtain ⟨r', hr', hstatus⟩ := (State.isCommitted_of_tree ht₁).mp (hsame.mpr hbefore)
          rw [hr, Option.some.injEq] at hr'
          rw [← hr', hpending] at hstatus
          cases hstatus
        · rintro ⟨hbefore | ⟨hg, -⟩, hnot⟩
          · exact absurd hbefore hnot
          · exact hg
      · have hlength := (hos.inOrder hs).length_roots
        have hlength₁ := (hreplayed.orderly.inOrder hs₁).length_roots
        have := happended.length_roots
        rw [Store.latestGeneration, Store.latestRoot_of_servedTree hs₂]
        refine congrArg Except.ok (hhistory.latest.1.trans ?_)
        show h₁.latest.generation = v.first + v.operations.length
        omega

/-- After every run, and whatever the server answers, a report of a replication says what
has happened to the copy. The copy is at a generation that depends on how many operations
the server has sent in its last answer. -/
theorem report_of_run {s₀ s : Store} (hs₀ : s₀.IsNew) {steps : List Step}
    (hrun : run s₀ steps = .ok s) {sent : List String}
    (hrep : replicate t root peer ⟨s, sent⟩ = (.ok report, c')) :
    report.Tells t root s c'.store ∧ report.first ≤ report.last ∧
      ∃ asked os, c'.sent = asked ++ [(Request.operations t report.first report.last).text] ∧
        peer.answer asked (.operations t report.first report.last) readOperations = .ok os ∧
        c'.store.latestGeneration t = .ok (report.first + os.length) :=
  tells_of_replicate (hs₀.orderly.of_run hrun) hrep

/-- A server that names generation 5 for a root and sends one operation that leads to it. -/
def overstating : Peer :=
  let leaf := Hash.terminal [1] [10]
  .scripted [(Wire.RootReply.known sampleTree 5 leaf .pending).text,
    Wire.OperationItem.listText [.insertion true leaf [1] [10] none none 1]]

theorem exists_report_of_overstating :
    ∃ report c', replicate sampleTree (.terminal [1] [10]) overstating ⟨.volatile, []⟩ =
        (.ok report, c') ∧ report.last = 5 ∧ c'.store.latestGeneration sampleTree = .ok 1 := by
  have heval : (do
      let report ← (replicate sampleTree (.terminal [1] [10]) overstating ⟨.volatile, []⟩).1
      let g ← (replicate sampleTree (.terminal [1] [10]) overstating
        ⟨.volatile, []⟩).2.store.latestGeneration sampleTree
      return decide (report.last = 5 ∧ g = 1) : Except Error Bool).toOption = some true := by
    decide +kernel
  generalize replicate sampleTree (.terminal [1] [10]) overstating ⟨.volatile, []⟩ = done at heval ⊢
  obtain ⟨report, hreport, heval⟩ := bind_eq_ok.mp (eq_ok_of_toOption heval)
  obtain ⟨g, hg, heval⟩ := bind_eq_ok.mp heval
  obtain ⟨hlast, rfl⟩ := of_decide_eq_true (Except.ok.inj heval)
  exact ⟨report, done.2, Prod.fst_eq_iff.mp hreport, hlast, hg⟩

/-- Its report goes through on an empty store, where it tells the truth but for the
generation afterwards. -/
theorem report_of_overstating :
    ∃ s report c', run .volatile [] = .ok s ∧
      replicate sampleTree (.terminal [1] [10]) overstating ⟨s, []⟩ = (.ok report, c') ∧
      report.Tells sampleTree (.terminal [1] [10]) s c'.store := by
  obtain ⟨report, c', hrep, -⟩ := exists_report_of_overstating
  have hrun : run .volatile [] = .ok .volatile := rfl
  exact ⟨.volatile, report, c', hrun, hrep, (report_of_run (.inl rfl) hrun hrep).1⟩

/-- A report may name a generation that the copy has not reached. -/
theorem report_overstates :
    ∃ report c', replicate sampleTree (.terminal [1] [10]) overstating ⟨.volatile, []⟩ =
        (.ok report, c') ∧ c'.store.latestGeneration sampleTree ≠ .ok report.last := by
  obtain ⟨report, c', hrep, hlast, hgeneration⟩ := exists_report_of_overstating
  refine ⟨report, c', hrep, ?_⟩
  rw [hlast, hgeneration]
  simp

end MerkleStore.Replica
