import MerkleStore.Proofs.Consistency
import MerkleStore.Proofs.Replication

/-!
# A replication is safe against any server

A server can make a replica do two things: put generations behind the last one of a
copy, each with the root the server has stated for it, and confirm generations whose
roots it has stated in a confirmed operation (`Replica.Contained`). This holds without
any assumption on digests, whether the replication goes through or fails. If no contents
collide, the store is consistent afterwards as well (`Replica.contained_of_run`).
-/

namespace MerkleStore

/-- A generation of another state differs in its status at most, and a confirmed one in
nothing. -/
def Root.Keeps (r r' : Root) : Prop := r' = r ∨ r' = { r with status := .committed }

theorem Root.Keeps.node {r r' : Root} (hk : r.Keeps r') : r'.node = r.node := by
  rcases hk with rfl | rfl <;> rfl

theorem Root.Keeps.generation {r r' : Root} (hk : r.Keeps r') : r'.generation = r.generation := by
  rcases hk with rfl | rfl <;> rfl

theorem Root.Keeps.committed {r r' : Root} (hk : r.Keeps r') (hr : r.status = .committed) :
    r'.status = .committed := by
  rcases hk with rfl | rfl
  · exact hr
  · rfl

theorem Root.Keeps.trans {r r' r'' : Root} (hk : r.Keeps r') (hk' : r'.Keeps r'') :
    r.Keeps r'' := by
  rcases hk with rfl | rfl
  · exact hk'
  · rcases hk' with rfl | rfl <;> exact .inr rfl

namespace Replica

/-- All that can have become of a store with a copy of a tree, after what a server has
said. -/
structure Contained (peer : Peer) (sent sent' : List String) (t : TreeId) (s s' : State) :
    Prop where
  nodes : ∀ (h : Hash) (n : Node), s.nodes[h]? = some n → s'.nodes[h]? = some n
  others : ∀ t' : TreeId, t' ≠ t → s'.trees[t']? = s.trees[t']?
  generations : ∀ (g : Nat) (r : Root), s.root? t g = some r →
    ∃ r', s'.root? t g = some r' ∧ r.Keeps r'
  operations : ∀ h : History, s.trees[t]? = some h →
    ∃ h', s'.trees[t]? = some h' ∧ h.operations <+: h'.operations
  /-- A new generation is the start of a tree, or the server has stated its root. -/
  stated : ∀ (g : Nat) (r : Root), s.root? t g = none → s'.root? t g = some r →
    (s.trees[t]? = none ∧ g = 0 ∧ r.node = none) ∨
      ∃ o, peer.States sent sent' t g o ∧ o.root = r.node
  /-- The server has confirmed an operation with the root of what is confirmed. -/
  confirmed : ∀ g : Nat, s'.IsCommitted t g → ¬ s.IsCommitted t g → ∃ r o,
    s'.root? t g = some r ∧ peer.States sent sent' t g o ∧ o.root = r.node ∧ o.status = .committed

variable {peer : Peer} {sent sent' : List String} {t : TreeId} {s s' s'' : State} {h : History}
  {os : List Operation} {gs : List Nat}

theorem Contained.refl (s : State) : Contained peer sent sent' t s s where
  nodes := fun _ _ hn => hn
  others := fun _ _ => rfl
  generations := fun g r hr => ⟨r, hr, .inl rfl⟩
  operations := fun h ht => ⟨h, ht, List.prefix_refl _⟩
  stated := by
    intro g r hno hr
    simp [hno] at hr
  confirmed := fun g hg hno => absurd hg hno

theorem Contained.trans (hs : Contained peer sent sent' t s s')
    (hs' : Contained peer sent sent' t s' s'') : Contained peer sent sent' t s s'' where
  nodes := fun h n hn => hs'.nodes h n (hs.nodes h n hn)
  others := fun t' ht' => (hs'.others t' ht').trans (hs.others t' ht')
  generations := by
    intro g r hr
    obtain ⟨r', hr', hkeeps⟩ := hs.generations g r hr
    obtain ⟨r'', hr'', hkeeps'⟩ := hs'.generations g r' hr'
    exact ⟨r'', hr'', hkeeps.trans hkeeps'⟩
  operations := by
    intro h ht
    obtain ⟨h', ht', hprefix⟩ := hs.operations h ht
    obtain ⟨h'', ht'', hprefix'⟩ := hs'.operations h' ht'
    exact ⟨h'', ht'', hprefix.trans hprefix'⟩
  stated := by
    intro g r hno hr
    cases hr' : s'.root? t g with
    | none =>
        refine (hs'.stated g r hr' hr).imp_left (And.imp_left fun hnone => ?_)
        cases ht : s.trees[t]? with
        | none => rfl
        | some h =>
            obtain ⟨h', ht', -⟩ := hs.operations h ht
            rw [hnone] at ht'
            cases ht'
    | some r' =>
        -- the generation is not new in the second step, which keeps its root
        obtain ⟨r'', hr'', hkeeps⟩ := hs'.generations g r' hr'
        rw [hr, Option.some.injEq] at hr''
        have hnode : r.node = r'.node := hr'' ▸ hkeeps.node
        rw [hnode]
        exact hs.stated g r' hno hr'
  confirmed := by
    intro g hg hno
    by_cases hg' : s'.IsCommitted t g
    · obtain ⟨r, o, hr, hstates, hroot, hstatus⟩ := hs.confirmed g hg' hno
      obtain ⟨r', hr', hkeeps⟩ := hs'.generations g r hr
      exact ⟨r', o, hr', hstates, hroot.trans hkeeps.node.symm, hstatus⟩
    · exact hs'.confirmed g hg hg'

/-- Where nothing has been confirmed, the generations are as they were. -/
theorem Contained.root?_of_unconfirmed (hs : Contained peer sent sent' t s s')
    (hno : ∀ g : Nat, s'.IsCommitted t g → s.IsCommitted t g) (g : Nat) (r : Root)
    (hr : s.root? t g = some r) : s'.root? t g = some r := by
  obtain ⟨r', hr', rfl | rfl⟩ := hs.generations g r hr
  · exact hr'
  · obtain ⟨r₀, hr₀, hstatus⟩ := hno g ⟨_, hr', rfl⟩
    rw [hr, Option.some.injEq] at hr₀
    subst hr₀
    rw [hr', ← hstatus]

/-- Creating the copy stays within the bounds. -/
theorem contained_of_opened {s s' : Store} (ho : s.Opened s' t) :
    Contained peer sent sent' t s.state s'.state := by
  rcases ho.cases with rfl | ⟨hno, hstate⟩
  · exact .refl _
  · have hnone : ∀ g, s.state.root? t g = none := fun g => by rw [State.root?, hno]; rfl
    rw [hstate]
    constructor
    case nodes => exact fun _ _ hn => hn
    case others => exact fun t' ht' => by rw [State.getElem?_setTree, if_neg (Ne.symm ht')]
    case generations =>
      intro g r hr
      rw [hnone] at hr
      cases hr
    case operations =>
      intro h ht
      rw [hno] at ht
      cases ht
    case stated =>
      intro g r _ hr
      rw [State.root?_of_tree (by rw [State.getElem?_setTree, if_pos rfl]), History.start,
        List.getElem?_singleton] at hr
      split at hr
      · next hg =>
          cases hr
          exact .inl ⟨hno, hg, rfl⟩
      · cases hr
    case confirmed =>
      intro g hg hnot
      rw [← hstate, ho.isCommitted_iff] at hg
      exact absurd hg hnot

/-- Repeating operations that the server has stated stays within the bounds. -/
theorem contained_of_appends (ht : s.trees[t]? = some h) (ha : s.Appends s' t os)
    (hos : ∀ (i : Nat) (o : Operation), os[i]? = some o →
      peer.States sent sent' t (h.roots.length + i) o) :
    Contained peer sent sent' t s s' := by
  obtain ⟨h', ht', happended⟩ := ha.tree h ht
  constructor
  case nodes => exact ha.nodes
  case others => exact ha.others
  case generations =>
    intro g r hr
    rw [State.root?_of_tree ht] at hr
    exact ⟨r, (State.root?_of_tree ht' g).trans (happended.getElem?_roots_of_some hr), .inl rfl⟩
  case operations =>
    intro k hk
    rw [ht, Option.some.injEq] at hk
    obtain ⟨logged, hlogged, -⟩ := happended.operations
    exact ⟨h', ht', hk ▸ hlogged ▸ List.prefix_append _ _⟩
  case stated =>
    intro g r hno hr
    rw [State.root?_of_tree ht] at hno
    rw [State.root?_of_tree ht'] at hr
    rcases happended.getElem?_roots g r hr with hr | ⟨hle, -, o, ho, hroot⟩
    · rw [hno] at hr
      cases hr
    · have hstates := hos _ o ho
      rw [Nat.add_sub_cancel' hle] at hstates
      exact .inr ⟨o, hstates, hroot⟩
  case confirmed => exact fun g hg hnot => absurd ((ha.isCommitted_iff ht).mp hg) hnot

/-- Confirming generations that the server has confirmed stays within the bounds. -/
theorem contained_of_confirmed (ht : s.trees[t]? = some h) (hc : s.Confirmed s' t gs)
    (hgs : ∀ g ∈ gs, ∃ r o, h.roots[g]? = some r ∧ peer.States sent sent' t g o ∧
      o.root = r.node ∧ o.status = .committed) :
    Contained peer sent sent' t s s' := by
  obtain ⟨h', ht', hhistory⟩ := hc.tree h ht
  have hkeeps (g : Nat) (r : Root) (hr : h.roots[g]? = some r) :
      ∃ r', h'.roots[g]? = some r' ∧ r.Keeps r' := by
    rw [hhistory.roots, hr]
    refine ⟨_, rfl, ?_⟩
    split
    · exact .inr rfl
    · exact .inl rfl
  constructor
  case nodes => exact fun k n hn => hc.nodes ▸ hn
  case others => exact hc.others
  case generations =>
    intro g r hr
    rw [State.root?_of_tree ht] at hr
    rw [State.root?_of_tree ht']
    exact hkeeps g r hr
  case operations =>
    intro k hk
    rw [ht, Option.some.injEq] at hk
    exact ⟨h', ht', hk ▸ hhistory.operations ▸ List.prefix_refl _⟩
  case stated =>
    intro g r hno hr
    rw [State.root?_of_tree ht] at hno
    rw [State.root?_of_tree ht', hhistory.roots, hno] at hr
    cases hr
  case confirmed =>
    intro g hg hnot
    rcases (hc.isCommitted_iff ht).mp hg with hg | ⟨hg, -⟩
    · exact absurd hg hnot
    · obtain ⟨r, o, hr, hstates, hroot, hstatus⟩ := hgs g hg
      obtain ⟨r', hr', hk⟩ := hkeeps g r hr
      exact ⟨r', o, (State.root?_of_tree ht' g).trans hr', hstates, hroot.trans hk.node.symm,
        hstatus⟩

/-! ## Replications -/

variable {peer : Peer} {c : Session} {U : Set Node}

/-- Whatever a server says, a replication stays within the bounds. If it fails, nothing
has been confirmed; if it goes through, the copy has the root that was asked for. -/
theorem contained_of_replicate (ho : c.store.Orderly) (t : TreeId) (root : Hash) (peer : Peer) :
    ∃ result c', replicate t root peer c = (result, c') ∧
      Contained peer c.sent c'.sent t c.store.state c'.store.state ∧
      (∀ e, result = .error e → ∀ g, c'.store.state.IsCommitted t g →
        c.store.state.IsCommitted t g) ∧
      ∀ report, result = .ok report → ∃ r, c'.store.latestRoot t = .ok r ∧ r.node = some root := by
  obtain ⟨s, sent, hopened, hsent, ⟨e, -, heq⟩ | ⟨v, -, hv, heq⟩⟩ := replicate_cases ho t root peer
  · exact ⟨_, _, heq, contained_of_opened hopened,
      fun _ _ g hg => (hopened.isCommitted_iff g).mp hg, by simp⟩
  · have hos := hopened.orderly ho
    obtain ⟨h, hs, -⟩ := hv.copy
    have ht := Store.tree_of_servedTree hs
    rcases conclude_cases hos hv root with ⟨e, i, hc, hreplayed⟩ |
      ⟨s', hc, hreplayed, -, hconfirmed, htop⟩
    · have hstates (j : Nat) (o : Operation) (hj : (v.operations.take i)[j]? = some o) :
          peer.States c.sent sent t (h.roots.length + j) o := by
        rw [List.getElem?_take, Option.ite_none_right_eq_some] at hj
        exact hv.states hos hs hj.2
      refine ⟨_, _, heq.trans hc, (contained_of_opened hopened).trans
        (contained_of_appends ht hreplayed.appends hstates), ?_, by simp⟩
      intro _ _ g hg
      rwa [hreplayed.appends.isCommitted_iff ht, hopened.isCommitted_iff] at hg
    · obtain ⟨h₁, hs₁, happended⟩ := hreplayed.servedTree hs
      obtain ⟨h₂, hs₂, hhistory⟩ := hconfirmed.servedTree hs₁
      have happends := contained_of_appends ht hreplayed.appends fun i o hi => hv.states hos hs hi
      have hconfirms : Contained peer c.sent sent t _ s'.state :=
        contained_of_confirmed (Store.tree_of_servedTree hs₁) hconfirmed.state fun g hg => by
          obtain ⟨r, o, hr, -, hrest⟩ := hv.exists_of_mem_confirmed hos hs happended hg
          exact ⟨r, o, hr, hrest⟩
      refine ⟨_, _, heq.trans hc, ((contained_of_opened hopened).trans happends).trans hconfirms,
        by simp, fun _ _ => ⟨h₂.latest, Store.latestRoot_of_servedTree hs₂, ?_⟩⟩
      exact hhistory.latest.2.trans (htop h₁ hs₁)

/-- The nodes that a replication makes, whether they are stored already or not. -/
def nodes (t : TreeId) (root : Hash) (peer : Peer) (c : Session) : List Node :=
  match survey t root peer c with
  | (.ok v, c') => Store.replayNodes t v.operations c'.store
  | (.error _, _) => []

theorem hash_of_mem_nodes {t : TreeId} {root : Hash} {n : Node}
    (hn : n ∈ nodes t root peer c) : n.hash = n.contentHash := by
  rw [nodes] at hn
  split at hn
  · exact Store.hash_of_mem_replayNodes hn
  · simp at hn

end Replica

namespace Store

variable {s s' : Store} {t : TreeId} {U : Set Node}

theorem Intact.opened (hs : s.Intact U) (hU : Set.InjOn Node.hash U) (ho : s.Opened s' t) :
    s'.Intact U := by
  rcases ho with rfl | ⟨-, hadd⟩
  · exact hs
  · have hcall := ((Call.addTree t).comes_perform hs hU (by simp [Call.nodes])).intact hs hU
    simpa only [Call.perform, bind, pure, Action.andThen_done, hadd] using hcall

theorem Intact.confirmAll (hs : s.Intact U) (hU : Set.InjOn Node.hash U) (t : TreeId)
    (gs : List Nat) : (Replica.confirmAll t gs s).2.Intact U := by
  induction gs generalizing s with
  | nil => exact hs
  | cons g gs ih =>
      have hcall := ((Call.confirm t g).comes_perform hs hU (by simp [Call.nodes])).intact hs hU
      simp only [Call.perform, bind, pure, Action.andThen_done] at hcall
      simp only [Replica.confirmAll, bind, Action.andThen]
      cases hone : confirm t g s with
      | mk result s₁ =>
          rw [hone] at hcall
          cases result with
          | error e => exact hcall
          | ok _ => exact ih hcall

end Store

namespace Replica

variable {peer : Peer} {c : Session} {U : Set Node}

/-- Without a collision a replication leaves nothing wrong. -/
theorem intact_of_replicate (ho : c.store.Orderly) (hs : c.store.Intact U)
    (hU : Set.InjOn Node.hash U) (t : TreeId) (root : Hash)
    (hn : ∀ n ∈ nodes t root peer c, n ∈ U) : (replicate t root peer c).2.store.Intact U := by
  obtain ⟨s, sent, hopened, -, ⟨e, -, heq⟩ | ⟨v, hsurvey, hv, heq⟩⟩ :=
    replicate_cases ho t root peer
  · rw [heq]
    exact hs.opened hU hopened
  · have hs₁ := hs.opened hU hopened
    have hmade : ∀ n ∈ Store.replayNodes t v.operations s, n ∈ U :=
      fun n hmem => hn n (by rwa [nodes, hsurvey])
    have hreplay := (Store.comes_replay hs₁ hU hmade).intact hs₁ hU
    rw [heq]
    rcases conclude_cases (hopened.orderly ho) hv root with ⟨e, i, hc, -⟩ | ⟨s', hc, -, hall, -⟩
    · rw [hc]
      exact hreplay
    · rw [hc]
      have := hreplay.confirmAll hU t v.confirmed
      rwa [hall] at this

/-- What a replication leaves at its end, with a report or with an error. -/
structure Safe (peer : Peer) (t : TreeId) (root : Hash) (c c' : Session)
    (result : Except Error Report) : Prop where
  contained : Contained peer c.sent c'.sent t c.store.state c'.store.state
  audit : Store.audit c'.store = (.ok (), c'.store)
  consistent : ∀ (u : TreeId) (h : History), c'.store.state.trees[u]? = some h →
    h.Consistent c'.store.state.nodes
  /-- An error leaves every status as it was, and what is new is pending. -/
  failed : ∀ e, result = .error e →
    (∀ (g : Nat) (r : Root), c.store.state.root? t g = some r → c'.store.state.root? t g = some r) ∧
      ∀ g : Nat, c'.store.state.IsCommitted t g → c.store.state.IsCommitted t g
  reached : ∀ report, result = .ok report →
    ∃ r, c'.store.latestRoot t = .ok r ∧ r.node = some root

/-- After every run without a collision a replication is safe, whatever the server
answers. -/
theorem safe_of_run {s₀ s : Store} (hs₀ : s₀.IsNew) {steps : List Step}
    (hrun : run s₀ steps = .ok s) (t : TreeId) (root : Hash) (peer : Peer) (sent : List String)
    (hc : CollisionFree (contents s₀ steps ++ nodes t root peer ⟨s, sent⟩)) :
    ∃ result c', replicate t root peer ⟨s, sent⟩ = (result, c') ∧
      Safe peer t root ⟨s, sent⟩ c' result := by
  have hU := hc.injOn_hash fun n hn =>
    (List.mem_append.mp hn).elim hash_of_mem_contents hash_of_mem_nodes
  have ho := hs₀.orderly.of_run hrun
  obtain ⟨s', hrun', hs, -⟩ := (hs₀.intact _).exists_run hU steps
    fun n hn => List.mem_append_left _ hn
  rw [hrun, Except.ok.injEq] at hrun'
  subst hrun'
  have hs' := intact_of_replicate (c := ⟨s, sent⟩) ho hs hU t root
    fun n hn => List.mem_append_right _ hn
  obtain ⟨result, c', heq, hcontained, hfailed, hreached⟩ :=
    contained_of_replicate (c := ⟨s, sent⟩) ho t root peer
  rw [heq] at hs'
  refine ⟨result, c', heq, hcontained, hs'.audit, fun u h ht => ?_,
    fun e he => ⟨?_, hfailed e he⟩, hreached⟩
  · obtain ⟨es, v, hm⟩ := hs'.sound.trees u h ht
    exact hm.consistent
  · exact hcontained.root?_of_unconfirmed (hfailed e he)

/-- A server of the tree of small runs, in which the first of two generations has been
confirmed. -/
def sampleServer : Peer :=
  let leaf := Hash.terminal [1] [10]
  let top := Hash.internal (.terminal [2] [20]) leaf
  .scripted [(Wire.RootReply.known sampleTree 2 top .pending).text,
    Wire.OperationItem.listText [.insertion true leaf [1] [10] none none 2],
    Wire.OperationItem.listText [.insertion true top [2] [20] (some leaf) (some .left) 1]]

/-- A copy at generation 1 is brought up to generation 2 by it. -/
theorem safe_of_sampleServer :
    let top := Hash.internal (.terminal [2] [20]) (.terminal [1] [10])
    ∃ s, run .volatile (sampleSteps.take 2) = .ok s ∧
      CollisionFree (contents .volatile (sampleSteps.take 2) ++
        nodes sampleTree top sampleServer ⟨s, []⟩) ∧
      ∃ report c', replicate sampleTree top sampleServer ⟨s, []⟩ = (.ok report, c') ∧
        Safe sampleServer sampleTree top ⟨s, []⟩ c' (.ok report) := by
  intro top
  have heval : (do
      let s ← run .volatile (sampleSteps.take 2)
      return decide (CollisionFree (contents .volatile (sampleSteps.take 2) ++
          nodes sampleTree top sampleServer ⟨s, []⟩) ∧
        (replicate sampleTree top sampleServer ⟨s, []⟩).1.isOk) :
          Except Error Bool).toOption = some true := by decide +kernel
  obtain ⟨s, hrun, heval⟩ := bind_eq_ok.mp (eq_ok_of_toOption heval)
  obtain ⟨hc, hok⟩ := of_decide_eq_true (Except.ok.inj heval)
  obtain ⟨result, c', heq, hsafe⟩ :=
    safe_of_run (.inl rfl) hrun sampleTree top sampleServer [] hc
  rw [heq] at hok
  cases result with
  | error e => cases hok
  | ok report => exact ⟨s, hrun, hc, report, c', heq, hsafe⟩

end Replica

end MerkleStore
