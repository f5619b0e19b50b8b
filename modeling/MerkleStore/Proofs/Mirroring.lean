import MerkleStore.Proofs.Divergence
import MerkleStore.Proofs.Report

/-!
# Copies that only follow a server

A replication from an honest server that goes through brings a copy to the generation of
the server, with the nodes of the server at all new generations, and with every status but
the first one taken over (`Replica.mirrors_of_replicate`). So a copy that has been made by
replications alone, however the server has gone on between them (`Follows`), has the roots
of the server field by field at every generation after generation 0
(`Replica.mirrored_of_follows`). Generation 0 has no operation that could tell its status,
and stays pending (`Replica.start_not_mirrored`).
-/

namespace MerkleStore

/-- What an honest server states is in its store. -/
theorem Peer.exists_root_of_states {S : Store} {sent sent' : List String} {t : TreeId} {g : Nat}
    {o : Operation} (hSo : S.Orderly) (hstates : (honest S).States sent sent' t g o) :
    0 < g ∧ ∃ R, S.state.root? t g = some R ∧ o.root = R.node ∧ o.status = R.status := by
  obtain ⟨asked, first, last, os, -, -, hanswer, hlt, ho⟩ := hstates
  have hos := (answer_operations_eq_ok.mp hanswer).2.2
  obtain ⟨H, hS⟩ : ∃ H, S.servedTree t = .ok H := by
    cases hS : S.servedTree t with
    | error e => simp [Store.operations, hS, bind, Except.bind] at hos
    | ok H => exact ⟨H, rfl⟩
  obtain ⟨R, hR, hroot, hstatus⟩ := (Store.gives_of_operations hSo hS hos).entry _ o ho
  rw [Nat.add_sub_cancel' hlt] at hR
  exact ⟨by omega, R, (State.root?_of_tree (Store.tree_of_servedTree hS) g).trans hR, hroot,
    hstatus⟩

theorem Store.exists_of_latestGeneration {s : Store} {t : TreeId} {g : Nat}
    (hg : s.latestGeneration t = .ok g) :
    ∃ h, s.servedTree t = .ok h ∧ h.latest.generation = g := by
  cases hs : s.servedTree t with
  | error e => simp [latestGeneration, latestRoot, hs, bind, Except.bind] at hg
  | ok h =>
      rw [latestGeneration, latestRoot_of_servedTree hs] at hg
      exact ⟨h, rfl, Except.ok.inj hg⟩

namespace Replica

variable {c c' : Session} {S : Store} {t : TreeId} {root : Hash} {report : Report}

/-- A replication keeps a store orderly. -/
theorem orderly_of_replicate (ho : c.store.Orderly) (t : TreeId) (root : Hash) (peer : Peer) :
    (replicate t root peer c).2.store.Orderly := by
  obtain ⟨s, sent, hopened, -, ⟨e, -, heq⟩ | ⟨v, -, hv, heq⟩⟩ := replicate_cases ho t root peer
  · rw [heq]
    exact hopened.orderly ho
  · rw [heq]
    rcases conclude_cases (hopened.orderly ho) hv root with ⟨e, i, hc, hreplayed⟩ |
      ⟨s', hc, -, -, hconfirmed, -⟩
    · rw [hc]
      exact hreplayed.orderly
    · rw [hc]
      exact hconfirmed.orderly

/-- A replication that goes through stays within the bounds, keeps the copy orderly and
leaves it at the root that was asked for. -/
theorem contained_of_report {peer : Peer} (ho : c.store.Orderly)
    (hrep : replicate t root peer c = (.ok report, c')) :
    Contained peer c.sent c'.sent t c.store.state c'.store.state ∧ c'.store.Orderly ∧
      ∃ r, c'.store.latestRoot t = .ok r ∧ r.node = some root := by
  obtain ⟨result, c'', heq, hcontained, -, hreached⟩ := contained_of_replicate ho t root peer
  have ho' := orderly_of_replicate ho t root peer
  rw [hrep] at heq ho'
  obtain ⟨rfl, rfl⟩ := Prod.mk.inj heq
  exact ⟨hcontained, ho', hreached report rfl⟩

/-- Nothing happens for a root that an honest server does not have. -/
theorem store_replicate_of_unknown (t : TreeId) (root : Hash)
    (hno : ∀ r, S.lastRootWith t (some root) ≠ .ok (some r)) :
    (replicate t root (.honest S) c).2.store = c.store := by
  rw [replicate_eq, survey, Exchange.bind_assoc]
  have hfetch := fetchRoot_eq t root (.honest S) c
  cases hanswer : (Peer.honest S).answer c.sent (.root t root) readRoot with
  | error e =>
      rw [hanswer] at hfetch
      rw [Exchange.bind_error hfetch]
      rfl
  | ok found =>
      rw [hanswer] at hfetch
      rw [Exchange.bind_ok hfetch]
      cases found with
      | none => rfl
      | some r => exact absurd (Peer.answer_root_eq_ok.mp hanswer).1 (hno r)

/-- What a replication from an honest server leaves of a copy. -/
structure Report.Mirrors (report : Report) (S : Store) (t : TreeId) (root : Hash)
    (s s' : Store) : Prop where
  remote : ∃ r, S.lastRootWith t (some root) = .ok (some r) ∧ r.generation = report.last
  latest : s'.latestGeneration t = .ok report.last
  nodes : ∀ g, report.first < g → g ≤ report.last → ∃ r R, s'.state.root? t g = some r ∧
    S.state.root? t g = some R ∧ r.node = R.node
  committed : ∀ g, 0 < g → g ≤ report.last →
    (s'.state.IsCommitted t g ↔ s.state.IsCommitted t g ∨ S.state.IsCommitted t g)

/-- What has been learned is to be confirmed where a server has confirmed it and the copy
has not. -/
theorem Survey.Learned.mem_confirmed {v : Survey} {s : Store} {h H : History} {g : Nat}
    (hSo : S.Orderly) (hs : s.servedTree t = .ok h) (ho : h.InOrder t)
    (hv : v.Learned S t root h H) (hg : 0 < g) (hle : g ≤ v.last)
    (hnot : ¬ s.state.IsCommitted t g) :
    g ∈ v.confirmed ↔ S.state.IsCommitted t g := by
  have hlength := ho.length_roots
  have hfirst := hv.first
  have hgives := Store.gives_of_operations hSo hv.served hv.operations
  rw [State.isCommitted_of_tree (Store.tree_of_servedTree hs)] at hnot
  rw [State.isCommitted_of_tree (Store.tree_of_servedTree hv.served), Survey.confirmed,
    List.mem_append, mem_confirmedAfter, hv.agrees.known]
  constructor
  · rintro (⟨-, r, R, -, hR, -, hcommitted⟩ | ⟨o, hlt, ho', hcommitted⟩)
    · exact ⟨R, hR, hcommitted⟩
    · obtain ⟨R, hR, -, hstatus⟩ := hgives.entry _ o ho'
      rw [Nat.add_sub_cancel' hlt] at hR
      exact ⟨R, hR, hstatus.symm.trans hcommitted⟩
  · rintro ⟨R, hR, hcommitted⟩
    rcases Nat.lt_or_ge v.first g with hlt | hge
    · have hcount := hgives.length
      obtain ⟨o, ho'⟩ : ∃ o, v.operations[g - (v.first + 1)]? = some o :=
        ⟨_, List.getElem?_eq_getElem (by omega)⟩
      obtain ⟨R', hR', -, hstatus⟩ := hgives.entry _ o ho'
      rw [Nat.add_sub_cancel' hlt, hR, Option.some.injEq] at hR'
      exact .inr ⟨o, hlt, ho', hstatus.trans (hR' ▸ hcommitted)⟩
    · obtain ⟨r, hr⟩ : ∃ r, h.roots[g]? = some r :=
        ⟨_, List.getElem?_eq_getElem (by omega)⟩
      refine .inl ⟨hg, r, R, hr, hR, ?_, hcommitted⟩
      cases hstatus : r.status with
      | pending => rfl
      | committed => exact absurd ⟨r, hr, hstatus⟩ hnot

/-- Whatever the copy was like before, a replication that goes through takes over the
nodes of new generations and every status but that of generation 0. -/
theorem mirrors_of_replicate (ho : c.store.Orderly) (hSo : S.Orderly)
    (hrep : replicate t root (.honest S) c = (.ok report, c')) :
    report.Mirrors S t root c.store c'.store := by
  obtain ⟨htells, hle, asked, os, -, hanswer, hlatest⟩ := tells_of_replicate ho hrep
  obtain ⟨hcontained, ho', -⟩ := contained_of_report ho hrep
  obtain ⟨s, sent, v, h, H, hopened, hs, hlearned, hv, hconclude⟩ :=
    learned_of_replicate ho hSo hrep
  have hos := hopened.orderly ho
  obtain rfl : report = v.report t root := by
    rcases conclude_cases hos hv root with ⟨e, i, hc, -⟩ | ⟨s', hc, -⟩ <;> rw [hconclude] at hc
    · cases hc
    · cases hc
      rfl
  have horder := hos.inOrder hs
  have hlength := horder.length_roots
  have hfirst : v.first = h.latest.generation := hlearned.first
  have hgives := Store.gives_of_operations hSo hlearned.served
    (Peer.answer_operations_eq_ok.mp hanswer).2.2
  have hlatest' : c'.store.latestGeneration t = .ok v.last := by
    rw [hlatest, hgives.length]
    exact congrArg Except.ok (Nat.add_sub_cancel' hle)
  constructor
  case remote => exact hlearned.remote
  case latest => exact hlatest'
  case nodes =>
    intro g hlt hge
    have hlt : v.first < g := hlt
    have hge : g ≤ v.last := hge
    have hnew : c.store.state.root? t g = none := by
      rcases hopened.cases with rfl | ⟨hnone, -⟩
      · rw [State.root?_of_tree (Store.tree_of_servedTree hs)]
        exact List.getElem?_eq_none_iff.mpr (by omega)
      · rw [State.root?, hnone]
        rfl
    obtain ⟨h', hs', hlast⟩ := Store.exists_of_latestGeneration hlatest'
    have hlength' := (ho'.inOrder hs').length_roots
    have hr : c'.store.state.root? t g = some h'.roots[g] := by
      rw [State.root?_of_tree (Store.tree_of_servedTree hs')]
      exact List.getElem?_eq_getElem (by omega)
    rcases hcontained.stated g _ hnew hr with ⟨-, rfl, -⟩ | ⟨o, hstates, hroot⟩
    · omega
    · obtain ⟨-, R, hR, hnode, -⟩ := Peer.exists_root_of_states hSo hstates
      exact ⟨_, R, hr, hR, hroot.symm.trans hnode⟩
  case committed =>
    intro g hg hge
    have hconfirmed := htells.confirmed g
    constructor
    · intro hcommitted
      by_cases hbefore : c.store.state.IsCommitted t g
      · exact .inl hbefore
      · rw [← hopened.isCommitted_iff] at hbefore
        exact .inr ((hlearned.mem_confirmed hSo hs horder hg hge hbefore).mp
          (hconfirmed.mpr ⟨hcommitted, (hopened.isCommitted_iff g).not.mp hbefore⟩))
    · intro hcommitted
      by_cases hbefore : c.store.state.IsCommitted t g
      · obtain ⟨r, hr, hstatus⟩ := hbefore
        obtain ⟨r', hr', hkeeps⟩ := hcontained.generations g r hr
        exact ⟨r', hr', hkeeps.committed hstatus⟩
      · have hserver := hcommitted.resolve_left hbefore
        rw [← hopened.isCommitted_iff] at hbefore
        exact (hconfirmed.mp ((hlearned.mem_confirmed hSo hs horder hg hge hbefore).mpr
          hserver)).1

end Replica

/-! ## Following -/

/-- The tree that a step can change. -/
def Step.tree? : Step → Option TreeId
  | .call c => c.tree?
  | .reopen => none

/-- A store in which a tree has only ever been made by replications from a server, which
has gone on in between. -/
inductive Follows (t : TreeId) : Store → Store → Prop
  | start {S s : Store} (hS : S.IsNew) (hs : s.IsNew) : Follows t S s
  | serve {S S' s : Store} (h : Follows t S s) (step : Step) (hstep : step.after S = .ok S') :
      Follows t S' s
  | work {S s s' : Store} (h : Follows t S s) (step : Step) (hother : step.tree? ≠ some t)
      (hstep : step.after s = .ok s') : Follows t S s'
  | replicate {S s : Store} (h : Follows t S s) (root : Hash) (sent : List String) :
      Follows t S (Replica.replicate t root (.honest S) ⟨s, sent⟩).2.store
  | replicateOther {S s : Store} (h : Follows t S s) {t' : TreeId} (hother : t' ≠ t) (root : Hash)
      (peer : Peer) (sent : List String) :
      Follows t S (Replica.replicate t' root peer ⟨s, sent⟩).2.store

/-- A copy of a tree has the nodes of a server, and what is confirmed of it is confirmed
there. -/
structure Trails (t : TreeId) (S s : Store) : Prop where
  server : S.Orderly
  copy : s.Orderly
  start : ∀ R, S.state.root? t 0 = some R → R.node = none
  roots : ∀ (g : Nat) (r : Root), s.state.root? t g = some r →
    ∃ R, S.state.root? t g = some R ∧ R.node = r.node ∧
      (r.status = .committed → 0 < g ∧ R.status = .committed)

namespace Trails

variable {t t' : TreeId} {S S' s s' : Store} {step : Step}

theorem start_of_isNew (hS : S.IsNew) (hs : s.IsNew) : Trails t S s where
  server := hS.orderly
  copy := hs.orderly
  start := by
    intro R hR
    rw [hS.root?_eq_none] at hR
    cases hR
  roots := by
    intro g r hr
    rw [hs.root?_eq_none] at hr
    cases hr

/-- What a server does is behind what a copy has. -/
theorem serve (h : Trails t S s) (hstep : step.after S = .ok S') : Trails t S' s := by
  obtain ⟨hextends, hserver⟩ := h.server.extends_step hstep
  refine ⟨hserver, h.copy, fun R' hR' => ?_, fun g r hr => ?_⟩
  · cases hR : S.state.root? t 0 with
    | none => exact hextends.starts t R' hR hR'
    | some R =>
        obtain ⟨R'', hR'', hkeeps⟩ := hextends.generations t 0 R hR
        rw [hR', Option.some.injEq] at hR''
        exact hR'' ▸ hkeeps.node.trans (h.start R hR)
  · obtain ⟨R, hR, hnode, hcommitted⟩ := h.roots g r hr
    obtain ⟨R', hR', hkeeps⟩ := hextends.generations t g R hR
    refine ⟨R', hR', hkeeps.node.trans hnode, fun hstatus => ?_⟩
    obtain ⟨hg, hserver⟩ := hcommitted hstatus
    exact ⟨hg, hkeeps.committed hserver⟩

theorem congr (h : Trails t S s) (ho : s'.Orderly)
    (hroots : ∀ g, s'.state.root? t g = s.state.root? t g) : Trails t S s' :=
  ⟨h.server, ho, h.start, fun g r hr => h.roots g r (hroots g ▸ hr)⟩

theorem work (h : Trails t S s) (hother : step.tree? ≠ some t) (hstep : step.after s = .ok s') :
    Trails t S s' := by
  refine h.congr (h.copy.extends_step hstep).2 fun g => ?_
  cases step with
  | call c =>
      cases hstep
      rw [State.root?, State.root?, c.getElem?_perform h.copy hother]
  | reopen =>
      obtain ⟨s₁, hreopen, -, halike, -⟩ := h.copy.exists_reopen
      rw [Step.after, hreopen, Except.ok.injEq] at hstep
      exact hstep ▸ halike.root?_eq t g

theorem replicateOther (h : Trails t S s) (hother : t' ≠ t) (root : Hash) (peer : Peer)
    (sent : List String) : Trails t S (Replica.replicate t' root peer ⟨s, sent⟩).2.store := by
  refine h.congr (Replica.orderly_of_replicate h.copy t' root peer) fun g => ?_
  obtain ⟨result, c', heq, hcontained, -⟩ :=
    Replica.contained_of_replicate (c := ⟨s, sent⟩) h.copy t' root peer
  rw [heq, State.root?, State.root?, hcontained.others t hother.symm]

/-- All that a replication adds to a copy has been stated by the server, whether it goes
through or not. -/
theorem replicate (h : Trails t S s) (root : Hash) (sent : List String) :
    Trails t S (Replica.replicate t root (.honest S) ⟨s, sent⟩).2.store := by
  by_cases hknown : ∃ r, S.lastRootWith t (some root) = .ok (some r)
  · obtain ⟨r, hr⟩ := hknown
    obtain ⟨H, hS⟩ := Replica.servedTree_of_lastRootWith hr
    obtain ⟨R₀, hstart⟩ : ∃ R₀, S.state.root? t 0 = some R₀ := by
      rw [State.root?_of_tree (Store.tree_of_servedTree hS)]
      exact ⟨_, List.getElem?_eq_getElem (List.length_pos_iff.mpr H.roots_ne_nil)⟩
    obtain ⟨result, c', heq, hcontained, -⟩ :=
      Replica.contained_of_replicate (c := ⟨s, sent⟩) h.copy t root (.honest S)
    have ho := Replica.orderly_of_replicate (c := ⟨s, sent⟩) h.copy t root (.honest S)
    rw [heq] at ho ⊢
    refine ⟨h.server, ho, h.start, fun g r' hr' => ?_⟩
    -- a generation that was there before, or one that is new
    obtain ⟨R, hR, hnode, hold⟩ : ∃ R, S.state.root? t g = some R ∧ R.node = r'.node ∧
        (s.state.IsCommitted t g → 0 < g ∧ R.status = .committed) := by
      cases hbefore : s.state.root? t g with
      | some r₀ =>
          obtain ⟨R, hR, hnode, hcommitted⟩ := h.roots g r₀ hbefore
          obtain ⟨r'', hr'', hkeeps⟩ := hcontained.generations g r₀ hbefore
          rw [hr', Option.some.injEq] at hr''
          refine ⟨R, hR, hnode.trans (hr'' ▸ hkeeps.node.symm), ?_⟩
          rintro ⟨r₁, hr₁, hstatus⟩
          rw [hbefore, Option.some.injEq] at hr₁
          exact hcommitted (hr₁ ▸ hstatus)
      | none =>
          have hno : ¬ s.state.IsCommitted t g := by
            rintro ⟨r₁, hr₁, -⟩
            rw [hbefore] at hr₁
            cases hr₁
          rcases hcontained.stated g r' hbefore hr' with ⟨-, rfl, hnone⟩ | ⟨o, hstates, hroot⟩
          · exact ⟨_, hstart, (h.start _ hstart).trans hnone.symm, fun hg => absurd hg hno⟩
          · obtain ⟨-, R, hR, hnode, -⟩ := Peer.exists_root_of_states h.server hstates
            exact ⟨R, hR, hnode.symm.trans hroot, fun hg => absurd hg hno⟩
    refine ⟨R, hR, hnode, fun hstatus => ?_⟩
    by_cases hbefore : s.state.IsCommitted t g
    · exact hold hbefore
    · obtain ⟨r₁, o, -, hstates, -, hcommitted⟩ :=
        hcontained.confirmed g ⟨r', hr', hstatus⟩ hbefore
      obtain ⟨hg, R', hR', -, hstatus'⟩ := Peer.exists_root_of_states h.server hstates
      rw [hR, Option.some.injEq] at hR'
      exact ⟨hg, hR' ▸ hstatus'.symm.trans hcommitted⟩
  · rw [Replica.store_replicate_of_unknown (c := ⟨s, sent⟩) t root
      fun r hr => hknown ⟨r, hr⟩]
    exact h

end Trails

theorem Follows.serve_run {t : TreeId} {S S' s : Store} (h : Follows t S s) {steps : List Step}
    (hrun : run S steps = .ok S') : Follows t S' s := by
  induction steps generalizing S with
  | nil =>
      cases hrun
      exact h
  | cons step steps ih =>
      rw [run, List.foldlM_cons] at hrun
      obtain ⟨S₁, hstep, hrest⟩ := bind_eq_ok.mp hrun
      exact ih (h.serve step hstep) hrest

/-- A copy that follows a server trails it. -/
theorem Follows.trails {t : TreeId} {S s : Store} (h : Follows t S s) : Trails t S s := by
  induction h with
  | start hS hs => exact .start_of_isNew hS hs
  | serve _ step hstep ih => exact ih.serve hstep
  | work _ step hother hstep ih => exact ih.work hother hstep
  | replicate _ root sent ih => exact ih.replicate root sent
  | replicateOther _ hother root peer sent ih => exact ih.replicateOther hother root peer sent

namespace Replica

variable {c' : Session} {S s : Store} {t : TreeId} {root : Hash} {report : Report}

/-- After a replication that goes through, a copy that follows a server has the roots of
the server up to the generation that the server has given for the root, field by field but
for the status of generation 0, which is pending. -/
theorem mirrored_of_follows (hf : Follows t S s) {sent : List String}
    (hrep : replicate t root (.honest S) ⟨s, sent⟩ = (.ok report, c')) :
    (∃ r, S.lastRootWith t (some root) = .ok (some r) ∧ r.generation = report.last) ∧
      c'.store.latestGeneration t = .ok report.last ∧
      ∀ g ≤ report.last, ∃ R, S.root t g = .ok R ∧
        c'.store.root t g = .ok (if g = 0 then { R with status := .pending } else R) := by
  have hbefore := hf.trails
  have hafter := hbefore.replicate root sent
  rw [hrep] at hafter
  have hmirrors := mirrors_of_replicate hbefore.copy hbefore.server hrep
  obtain ⟨remote, hremote, -⟩ := id hmirrors.remote
  obtain ⟨H, hS⟩ := servedTree_of_lastRootWith hremote
  obtain ⟨h, hs, hlatest⟩ := Store.exists_of_latestGeneration hmirrors.latest
  refine ⟨hmirrors.remote, hmirrors.latest, fun g hle => ?_⟩
  have hin := hafter.copy.inOrder hs
  have hin' := hafter.server.inOrder hS
  have hlength := hin.length_roots
  obtain ⟨r, hr⟩ : ∃ r, h.roots[g]? = some r := ⟨_, List.getElem?_eq_getElem (by omega)⟩
  have ht := State.root?_of_tree (Store.tree_of_servedTree hs) g
  have htS := State.root?_of_tree (Store.tree_of_servedTree hS) g
  obtain ⟨R, hR, hnode, hcommitted⟩ := hafter.roots g r (ht.trans hr)
  have hRg : H.roots[g]? = some R := htS.symm.trans hR
  obtain ⟨htree, hgeneration⟩ := hin.root g r hr
  obtain ⟨htree', hgeneration'⟩ := hin'.root g R hRg
  refine ⟨R, Store.root_of_servedTree hS hRg, ?_⟩
  rw [Store.root_of_servedTree hs hr]
  -- the two differ in the status at most, and what is confirmed beyond generation 0 is the same
  have hstatus : r.status = if g = 0 then .pending else R.status := by
    split
    · next hzero =>
        cases hr' : r.status with
        | pending => rfl
        | committed => exact absurd (hcommitted hr').1 (by omega)
    · next hpos =>
        cases hR' : R.status with
        | pending =>
            cases hr' : r.status with
            | pending => rfl
            | committed => exact (hcommitted hr').2.symm.trans hR'
        | committed =>
            obtain ⟨r', hroot, hr'⟩ := (hmirrors.committed g (by omega) hle).mpr
              (.inr ⟨R, hR, hR'⟩)
            rw [ht.trans hr, Option.some.injEq] at hroot
            exact hroot ▸ hr'
  obtain ⟨tree, generation, node, status⟩ := r
  obtain ⟨tree', generation', node', status'⟩ := R
  dsimp only at htree hgeneration htree' hgeneration' hnode hstatus
  subst htree hgeneration htree' hgeneration' hnode hstatus
  split <;> rfl

/-- A server that has confirmed both generations of a tree. -/
def confirmedServer : List Step :=
  [.call (.addTree sampleTree), .call (.insert sampleTree [1] [10] none none),
    .call (.confirm sampleTree 0), .call (.confirm sampleTree 1)]

theorem exists_report_of_confirmedServer :
    ∃ S report c', run .volatile confirmedServer = .ok S ∧
      replicate sampleTree (.terminal [1] [10]) (.honest S) ⟨.volatile, []⟩ = (.ok report, c') ∧
      report.last = 1 ∧ ∃ R₀ R₁, S.root sampleTree 0 = .ok R₀ ∧ R₀.status = .committed ∧
        S.root sampleTree 1 = .ok R₁ ∧ R₁.status = .committed := by
  have heval : (do
      let S ← run .volatile confirmedServer
      let H ← S.servedTree sampleTree
      (Store.addTree sampleTree .volatile).1
      let s := (Store.addTree sampleTree .volatile).2
      let h ← s.servedTree sampleTree
      let remote ← S.lastRootWith sampleTree (some (.terminal [1] [10]))
      let os ← S.operations sampleTree 0 1
      let R₀ ← S.root sampleTree 0
      let R₁ ← S.root sampleTree 1
      return decide (remote.map Root.generation = some 1 ∧ h.latest.generation = 0 ∧
        (∀ p ∈ h.roots.zip H.roots, p.2.node = p.1.node) ∧
        (Store.replay sampleTree os s).1.toOption = some (some (.terminal [1] [10])) ∧
        R₀.status = .committed ∧ R₁.status = .committed) : Except Error Bool).toOption =
      some true := by
    decide +kernel
  obtain ⟨S, hS, heval⟩ := bind_eq_ok.mp (eq_ok_of_toOption heval)
  obtain ⟨H, hH, heval⟩ := bind_eq_ok.mp heval
  obtain ⟨⟨⟩, hadd, heval⟩ := bind_eq_ok.mp heval
  obtain ⟨h, hh, heval⟩ := bind_eq_ok.mp heval
  obtain ⟨found, hremote, heval⟩ := bind_eq_ok.mp heval
  obtain ⟨os, hos, heval⟩ := bind_eq_ok.mp heval
  obtain ⟨R₀, hR₀, heval⟩ := bind_eq_ok.mp heval
  obtain ⟨R₁, hR₁, heval⟩ := bind_eq_ok.mp heval
  obtain ⟨hfound, hlatest, hnodes, hreplay, hstart, hfirst⟩ :=
    of_decide_eq_true (Except.ok.inj heval)
  obtain ⟨remote, rfl, hgeneration⟩ := Option.map_eq_some_iff.mp hfound
  obtain ⟨report, c', hrep, -, hlast⟩ := exists_replicate (c := ⟨.volatile, []⟩)
    (Store.IsNew.orderly (.inl rfl)) (Store.IsNew.orderly (.inl rfl) |>.of_run hS) hH hremote
    (by rw [hgeneration]; decide) (.inr ⟨rfl, Prod.ext hadd rfl⟩) hh (by omega)
    (fun g r R _ hr hR => hnodes (r, R)
      (List.mem_iff_getElem?.mpr ⟨g, List.getElem?_zip_eq_some.mpr ⟨hr, hR⟩⟩))
    (fun os' hos' => by
      rw [hlatest, hgeneration, hos, Except.ok.injEq] at hos'
      exact eq_ok_of_toOption (hos' ▸ hreplay))
  exact ⟨S, report, c', hS, hrep, hlast.trans hgeneration, R₀, R₁, hR₀, hstart, hR₁, hfirst⟩

/-- An empty copy takes over that generation 1 is confirmed. -/
theorem mirrored_of_confirmedServer :
    ∃ S report c' R, run .volatile confirmedServer = .ok S ∧ Follows sampleTree S .volatile ∧
      replicate sampleTree (.terminal [1] [10]) (.honest S) ⟨.volatile, []⟩ = (.ok report, c') ∧
      S.root sampleTree 1 = .ok R ∧ R.status = .committed ∧ c'.store.root sampleTree 1 = .ok R := by
  obtain ⟨S, report, c', hS, hrep, hlast, -, R₁, -, -, hR₁, hcommitted⟩ :=
    exists_report_of_confirmedServer
  have hf : Follows sampleTree S .volatile := (Follows.start (.inl rfl) (.inl rfl)).serve_run hS
  obtain ⟨-, -, hroots⟩ := mirrored_of_follows hf hrep
  obtain ⟨R, hR, hroot⟩ := hroots 1 (by omega)
  rw [hR₁, Except.ok.injEq] at hR
  exact ⟨S, report, c', R₁, hS, hf, hrep, hR₁, hcommitted, hR ▸ hroot⟩

/-- That generation 0 is confirmed is not taken over. -/
theorem start_not_mirrored :
    ∃ S report c' R r, run .volatile confirmedServer = .ok S ∧ Follows sampleTree S .volatile ∧
      replicate sampleTree (.terminal [1] [10]) (.honest S) ⟨.volatile, []⟩ = (.ok report, c') ∧
      0 ≤ report.last ∧ S.root sampleTree 0 = .ok R ∧ R.status = .committed ∧
      c'.store.root sampleTree 0 = .ok r ∧ r.status = .pending := by
  obtain ⟨S, report, c', hS, hrep, -, R₀, -, hR₀, hcommitted, -⟩ :=
    exists_report_of_confirmedServer
  have hf : Follows sampleTree S .volatile := (Follows.start (.inl rfl) (.inl rfl)).serve_run hS
  have hafter := hf.trails.replicate (.terminal [1] [10]) []
  rw [hrep] at hafter
  obtain ⟨h, hs, -⟩ := Store.exists_of_latestGeneration
    (mirrors_of_replicate hf.trails.copy hf.trails.server hrep).latest
  obtain ⟨r, hr⟩ : ∃ r, h.roots[0]? = some r :=
    ⟨_, List.getElem?_eq_getElem (List.length_pos_iff.mpr h.roots_ne_nil)⟩
  refine ⟨S, report, c', R₀, r, hS, hf, hrep, Nat.zero_le _, hR₀, hcommitted,
    Store.root_of_servedTree hs hr, ?_⟩
  cases hstatus : r.status with
  | pending => rfl
  | committed =>
      obtain ⟨_, _, _, hpos⟩ := hafter.roots 0 r
        ((State.root?_of_tree (Store.tree_of_servedTree hs) 0).trans hr)
      exact absurd (hpos hstatus).1 (Nat.lt_irrefl 0)

end Replica

end MerkleStore
