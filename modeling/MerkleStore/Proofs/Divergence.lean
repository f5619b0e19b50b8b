import MerkleStore.Proofs.HonestServer
import MerkleStore.Proofs.Lasting

/-!
# Copies that have diverged

A replication from an honest server goes through only if the copy and the server have the
same nodes at every generation from the first pending one on, and at the last one
(`Replica.agreement_of_run`). What has been confirmed before that is not compared. Two
histories that lead to one root by different ways are told apart by nothing if only
confirmed generations lie in between (`Replica.divergence_unnoticed`).
-/

namespace MerkleStore

theorem Store.Opened.eq_of_tree {s s' : Store} {t : TreeId} {h : History} (ho : s.Opened s' t)
    (ht : s.state.trees[t]? = some h) : s' = s := by
  rcases ho.cases with rfl | ⟨hnone, -⟩
  · rfl
  · rw [ht] at hnone
    cases hnone

namespace Replica

variable {c c' : Session} {S : Store} {t : TreeId} {root : Hash} {report : Report}

/-- What was learned in a replication from an honest server that has gone through. -/
theorem learned_of_replicate (ho : c.store.Orderly) (hSo : S.Orderly)
    (hrep : replicate t root (.honest S) c = (.ok report, c')) :
    ∃ s sent v h H, c.store.Opened s t ∧ s.servedTree t = .ok h ∧ v.Learned S t root h H ∧
      v.Fits (.honest S) c.sent sent s t ∧ conclude t root v (.honest S) ⟨s, sent⟩ =
        (.ok report, c') := by
  obtain ⟨s, sent, hopened, -, ⟨e, -, heq⟩ | ⟨v, hsurvey, hv, heq⟩⟩ :=
    replicate_cases ho t root (.honest S)
  · rw [hrep] at heq
    cases heq
  · obtain ⟨h, H, -, hs, hlearned⟩ := learned_of_survey ho hSo hsurvey
    exact ⟨s, sent, v, h, H, hopened, hs, hlearned, hv, heq ▸ hrep⟩

/-- After runs of a server and of a copy, a replication that goes through has found the
same node at generation 0, at the last generation of the copy, and at every generation
at or behind a pending one. -/
theorem agreement_of_run {S₀ s₀ s : Store} (hS₀ : S₀.IsNew) (hs₀ : s₀.IsNew)
    {steps₁ steps₂ : List Step} (hS : run S₀ steps₁ = .ok S) (hs : run s₀ steps₂ = .ok s)
    {sent : List String} (hrep : replicate t root (.honest S) ⟨s, sent⟩ = (.ok report, c'))
    {g : Nat} {r : Root} (hr : s.root t g = .ok r)
    (hg : g = 0 ∨ s.latestGeneration t = .ok g ∨
      ∃ p q, 0 < p ∧ p ≤ g ∧ s.root t p = .ok q ∧ q.status = .pending) :
    ∃ R, S.root t g = .ok R ∧ R.node = r.node := by
  have ho := hs₀.orderly.of_run hs
  have hSo := hS₀.orderly.of_run hS
  obtain ⟨s', sent', v, h, H, hopened, hserved, hlearned, -⟩ :=
    learned_of_replicate (c := ⟨s, sent⟩) ho hSo hrep
  obtain ⟨h', ht, -⟩ := Store.exists_of_root hr
  obtain rfl : s' = s := hopened.eq_of_tree ht
  have ht := Store.tree_of_servedTree hserved
  have horder := ho.inOrder hserved
  have hroot {g : Nat} {r : Root} (hr : s'.root t g = .ok r) : h.roots[g]? = some r := by
    rw [← State.root?_of_tree ht]
    exact (Store.root_eq_ok_iff.mp hr).2
  have hr' := hroot hr
  -- beyond generation 0 the node is known where the comparison starts in front of it
  have hcompared (hpos : 0 < g) (hfrom : h.comparedFrom ≤ g) :
      ∃ R, S.root t g = .ok R ∧ R.node = r.node := by
    obtain ⟨r', R, hr'', hR, hnode⟩ :=
      hlearned.agrees.nodes g hpos hfrom (List.getElem?_eq_some_iff.mp hr').1
    rw [hr', Option.some.injEq] at hr''
    exact ⟨R, Store.root_of_servedTree hlearned.served hR, hr'' ▸ hnode⟩
  have hstart (hzero : g = 0) : ∃ R, S.root t g = .ok R ∧ R.node = r.node := by
    subst hzero
    have hlength := (hSo.inOrder hlearned.served).length_roots
    have hR : H.roots[0]? = some H.roots[0] := List.getElem?_eq_getElem (by omega)
    have hget := Store.root_of_servedTree hlearned.served hR
    exact ⟨_, hget, (hS₀.node_start hS (Store.root_eq_ok_iff.mp hget).2).trans
      (hs₀.node_start hs (Store.root_eq_ok_iff.mp hr).2).symm⟩
  rcases hg with hzero | hlatest | ⟨p, q, hpos, hle, hq, hpending⟩
  · exact hstart hzero
  · rcases Nat.eq_zero_or_pos g with hzero | hpos
    · exact hstart hzero
    · rw [Store.latestGeneration, Store.latestRoot_of_servedTree hserved] at hlatest
      cases hlatest
      exact hcompared hpos (h.comparedFrom_le_latest horder)
  · exact hcompared (by omega)
      (Nat.le_trans (h.comparedFrom_le horder hpos (hroot hq) hpending) hle)

/-- A server that puts key 1 on the left of key 2. -/
def forkedServer : List Step :=
  [.call (.addTree sampleTree), .call (.insert sampleTree [2] [20] none none),
    .call (.insert sampleTree [1] [10] (some (.terminal [2] [20])) (some .left))]

/-- A copy that has put key 2 on the right of key 1, and confirmed generation 1. -/
def forkedCopy : List Step :=
  [.call (.addTree sampleTree), .call (.insert sampleTree [1] [10] none none),
    .call (.insert sampleTree [2] [20] (some (.terminal [1] [10])) (some .right)),
    .call (.confirm sampleTree 1)]

/-- The root that both of them have at generation 2. -/
def forkedRoot : Hash := .internal (.terminal [1] [10]) (.terminal [2] [20])

theorem exists_report_of_forked :
    ∃ S s report c', run .volatile forkedServer = .ok S ∧ run .volatile forkedCopy = .ok s ∧
      replicate sampleTree forkedRoot (.honest S) ⟨s, []⟩ = (.ok report, c') ∧
      (report.first = 2 ∧ report.last = 2) ∧
      ∃ r₁ r₂ R₁, s.root sampleTree 1 = .ok r₁ ∧ s.root sampleTree 2 = .ok r₂ ∧
        r₂.status = .pending ∧ S.root sampleTree 1 = .ok R₁ ∧ R₁.node ≠ r₁.node := by
  have heval : (do
      let S ← run .volatile forkedServer
      let s ← run .volatile forkedCopy
      let H ← S.servedTree sampleTree
      let h ← s.servedTree sampleTree
      let remote ← S.lastRootWith sampleTree (some forkedRoot)
      let os ← S.operations sampleTree 2 2
      let r₁ ← s.root sampleTree 1
      let r₂ ← s.root sampleTree 2
      let R₁ ← S.root sampleTree 1
      return decide (remote.map Root.generation = some 2 ∧ h.latest.generation = 2 ∧
        (∀ p ∈ h.roots.zip H.roots, h.comparedFrom ≤ p.1.generation → p.2.node = p.1.node) ∧
        (Store.replay sampleTree os s).1.toOption = some (some forkedRoot) ∧
        r₂.status = .pending ∧ R₁.node ≠ r₁.node) : Except Error Bool).toOption = some true := by
    decide +kernel
  obtain ⟨S, hS, heval⟩ := bind_eq_ok.mp (eq_ok_of_toOption heval)
  obtain ⟨s, hs, heval⟩ := bind_eq_ok.mp heval
  obtain ⟨H, hH, heval⟩ := bind_eq_ok.mp heval
  obtain ⟨h, hh, heval⟩ := bind_eq_ok.mp heval
  obtain ⟨found, hremote, heval⟩ := bind_eq_ok.mp heval
  obtain ⟨os, hos, heval⟩ := bind_eq_ok.mp heval
  obtain ⟨r₁, hr₁, heval⟩ := bind_eq_ok.mp heval
  obtain ⟨r₂, hr₂, heval⟩ := bind_eq_ok.mp heval
  obtain ⟨R₁, hR₁, heval⟩ := bind_eq_ok.mp heval
  obtain ⟨hfound, hlatest, hnodes, hreplay, hpending, hne⟩ :=
    of_decide_eq_true (Except.ok.inj heval)
  obtain ⟨remote, rfl, hgeneration⟩ := Option.map_eq_some_iff.mp hfound
  have ho := (Store.IsNew.orderly (.inl rfl)).of_run hs
  have horder := ho.inOrder hh
  obtain ⟨report, c', hrep, hfirst, hlast⟩ := exists_replicate (c := ⟨s, []⟩)
    ho (Store.IsNew.orderly (.inl rfl) |>.of_run hS)
    hH hremote (by rw [hgeneration]; decide) (.inl rfl) hh (by omega)
    (fun g r R hg hr hR => hnodes (r, R)
      (List.mem_iff_getElem?.mpr ⟨g, List.getElem?_zip_eq_some.mpr ⟨hr, hR⟩⟩)
      ((horder.root g r hr).2 ▸ hg))
    (fun os' hos' => by
      rw [hlatest, hgeneration, hos, Except.ok.injEq] at hos'
      exact eq_ok_of_toOption (hos' ▸ hreplay))
  exact ⟨S, s, report, c', hS, hs, hrep, ⟨hfirst.trans hlatest, hlast.trans hgeneration⟩, r₁, r₂,
    R₁, hr₁, hr₂, hpending, hR₁, hne⟩

/-- The last generations of the two are found to be the same. -/
theorem agreement_of_forked :
    ∃ S s report c' r R, run .volatile forkedServer = .ok S ∧ run .volatile forkedCopy = .ok s ∧
      replicate sampleTree forkedRoot (.honest S) ⟨s, []⟩ = (.ok report, c') ∧
      s.root sampleTree 2 = .ok r ∧ S.root sampleTree 2 = .ok R ∧ R.node = r.node := by
  obtain ⟨S, s, report, c', hS, hs, hrep, -, -, r, -, -, hr, hpending, -⟩ :=
    exists_report_of_forked
  obtain ⟨R, hR, hnode⟩ := agreement_of_run (.inl rfl) (.inl rfl) hS hs hrep hr
    (.inr (.inr ⟨2, r, by decide, Nat.le_refl 2, hr, hpending⟩))
  exact ⟨S, s, report, c', r, R, hS, hs, hrep, hr, hR, hnode⟩

/-- A replication may go through although the copy and the server have different nodes at
a confirmed generation. -/
theorem divergence_unnoticed :
    ∃ S s report c', run .volatile forkedServer = .ok S ∧ run .volatile forkedCopy = .ok s ∧
      replicate sampleTree forkedRoot (.honest S) ⟨s, []⟩ = (.ok report, c') ∧
      1 ≤ report.first ∧ ∃ r R, s.root sampleTree 1 = .ok r ∧ S.root sampleTree 1 = .ok R ∧
        R.node ≠ r.node := by
  obtain ⟨S, s, report, c', hS, hs, hrep, ⟨hfirst, -⟩, r, -, R, hr, -, -, hR, hne⟩ :=
    exists_report_of_forked
  exact ⟨S, s, report, c', hS, hs, hrep, by omega, r, R, hr, hR, hne⟩

end Replica

end MerkleStore
