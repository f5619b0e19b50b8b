import MerkleStore.Proofs.Addressing
import MerkleStore.Proofs.HonestServer
import MerkleStore.Proofs.Stepwise

/-!
# Asking a server is asking its store

A request is written, understood and answered, and the answer is read: what comes out is what
the store itself gives, and a request is refused only where the store has nothing to give
(`Server.Transparent`). The nodes of a subtree travel without their hashes, which are computed
again where they arrive. They come out as they are stored because every node is stored under
the hash of its content. So this holds after every run (`Server.transparent_of_run`).
-/

namespace MerkleStore.Server

open Wire

/-- What is read in an answer is what the store gives, and nothing is refused but what the
store cannot give. -/
structure Transparent (s : Store) : Prop where
  /-- The server understands what a client asks. -/
  understood : ∀ r : Request, r.Fits → Request.parse r.text = .ok r
  /-- Whatever root is asked for, there is an answer. -/
  root_answered : ∀ (t : TreeId) (h : Hash), ∃ text, reply s (.root t h) = .ok text
  /-- The last generation with this root is told, or none where the store refuses to look. -/
  root : ∀ (t : TreeId) (h : Hash) (text : String), reply s (.root t h) = .ok text →
    ∃ found, Replica.readRoot text = .ok found ∧ (s.lastRootWith t (some h) = .ok found ∨
      found = none ∧ (s.lastRootWith t (some h) = .error (.notFound (.tree t)) ∨
        s.lastRootWith t (some h) = .error (.quarantined t)))
  operations_refused : ∀ (t : TreeId) (first last : Nat),
    (∃ e, reply s (.operations t first last) = .error e) ↔
      ∃ e, s.operations t first last = .error e
  operations : ∀ (t : TreeId) (first last : Nat) (text : String),
    reply s (.operations t first last) = .ok text →
      ∃ os, Replica.readOperations text = .ok os ∧ s.operations t first last = .ok os
  /-- A subtree is refused if the tree is unknown or out of service, or if a node under the
  hash is not stored. -/
  nodes_refused : ∀ (t : TreeId) (h : Hash), (∃ e, reply s (.nodes t h) = .error e) ↔
    s.hasTree t = false ∨ s.isOutOfService t = true ∨
      ∃ k, (s.preorder h).failure = some (.notFound (.node k)) ∧ s.state.nodes[k]? = none
  /-- Else its nodes are told as a walk gives them, each with the hash it is stored with. -/
  nodes : ∀ (t : TreeId) (h : Hash) (text : String), reply s (.nodes t h) = .ok text →
    ∃ ns, Replica.readNodes t h text = .ok ns ∧
      (Cursor.ofStart h).Gives s.state.nodes (ns.map .ok)

variable {s s₀ : Store} {t : TreeId} {h : Hash} {first last : Nat} {text : String} {r : Root}

/-! ## Roots -/

theorem servedTree_cases (s : Store) (t : TreeId) : (∃ H, s.servedTree t = .ok H) ∨
    s.servedTree t = .error (.notFound (.tree t)) ∨ s.servedTree t = .error (.quarantined t) := by
  rw [Store.servedTree, Store.requireInService]
  cases s.isOutOfService t with
  | true => exact .inr (.inr rfl)
  | false =>
      show (∃ H, s.state.tree t = .ok H) ∨ s.state.tree t = _ ∨ s.state.tree t = _
      rw [State.tree]
      cases s.state.trees[t]? with
      | none => exact .inr (.inl rfl)
      | some H => exact .inl ⟨H, rfl⟩

theorem lastRootWith_cases (s : Store) (t : TreeId) (node : Option Hash) :
    (∃ found, s.lastRootWith t node = .ok found) ∨
      s.lastRootWith t node = .error (.notFound (.tree t)) ∨
      s.lastRootWith t node = .error (.quarantined t) := by
  rw [Store.lastRootWith]
  rcases servedTree_cases s t with ⟨H, hH⟩ | herror | herror
  · rw [hH]
    exact .inl ⟨_, rfl⟩
  · rw [herror]
    exact .inr (.inl rfl)
  · rw [herror]
    exact .inr (.inr rfl)

/-- The number of a root that is told fits sixty-four bits. -/
theorem generation_lt (ho : s.Orderly) (hn : s.state.Numbered) {node : Option Hash}
    (hr : s.lastRootWith t node = .ok (some r)) : r.generation < Json.wordBound := by
  obtain ⟨H, hH⟩ := Replica.servedTree_of_lastRootWith hr
  have hroot := (Replica.generation_le_latest ho hH hr).2
  have hlength := hn t H (Store.tree_of_servedTree hH)
  exact Nat.lt_of_lt_of_le (List.getElem?_eq_some_iff.mp hroot).1 hlength

theorem readRoot_text {a : RootReply}
    (ha : ∀ t g h s, a = .known t g h s → g < Json.wordBound) :
    Replica.readRoot a.text = .ok a.toRoot? := by
  rw [Replica.readRoot, RootReply.parse_text ha]
  rfl

theorem readRoot_ofRoot (ho : s.Orderly) (hn : s.state.Numbered) {found : Option Root}
    (hr : s.lastRootWith t (some h) = .ok found) :
    Replica.readRoot (RootReply.ofRoot found).text = .ok found := by
  cases found with
  | none => exact readRoot_text (by simp [RootReply.ofRoot])
  | some r =>
      have hlt := generation_lt ho hn hr
      obtain ⟨t', g, node, status⟩ := r
      obtain rfl : node = some h := Peer.node_of_lastRootWith hr
      refine readRoot_text fun _ _ _ _ heq => ?_
      cases heq
      exact hlt

theorem exists_reply_root (ho : s.Orderly) (hn : s.state.Numbered) (t : TreeId) (h : Hash) :
    ∃ text found, reply s (.root t h) = .ok text ∧ Replica.readRoot text = .ok found ∧
      (s.lastRootWith t (some h) = .ok found ∨
        found = none ∧ (s.lastRootWith t (some h) = .error (.notFound (.tree t)) ∨
          s.lastRootWith t (some h) = .error (.quarantined t))) := by
  have hunknown : Replica.readRoot RootReply.unknown.text = .ok none := readRoot_text (by simp)
  rcases lastRootWith_cases s t (some h) with ⟨found, hr⟩ | hr | hr
  · exact ⟨_, found, by rw [reply, hr], readRoot_ofRoot ho hn hr, .inl hr⟩
  · exact ⟨_, none, by rw [reply, hr], hunknown, .inr ⟨rfl, .inl hr⟩⟩
  · exact ⟨_, none, by rw [reply, hr], hunknown, .inr ⟨rfl, .inr hr⟩⟩

/-! ## Operations -/

theorem reply_operations (s : Store) (t : TreeId) (first last : Nat) :
    reply s (.operations t first last) = (s.operations t first last).map fun os =>
      OperationItem.listText (os.map OperationItem.ofOperation) := by
  rw [reply]
  cases s.operations t first last <;> rfl

theorem readOperations_listText (os : List Operation) :
    Replica.readOperations (OperationItem.listText (os.map OperationItem.ofOperation)) =
      .ok os := by
  rw [Replica.readOperations, OperationItem.parseList_listText]
  exact OperationItem.mapM_toOperation os

/-! ## Nodes -/

/-- The text for nodes. -/
def nodesText (ns : List Node) : String := (NodesReply.mk (ns.map NodeItem.ofNode)).text

theorem reply_nodes_eq_ok : reply s (.nodes t h) = .ok text ↔
    s.hasTree t = true ∧ s.isOutOfService t = false ∧ (s.preorder h).failure = none ∧
      text = nodesText ((s.preorder h).visited.map Prod.snd) := by
  rw [reply, Store.requireInService, Trace.nodes]
  cases hasTree : s.hasTree t with
  | false => simp [bind, Except.bind, throw, throwThe, MonadExceptOf.throw]
  | true =>
      cases s.isOutOfService t with
      | true => simp [bind, Except.bind]
      | false =>
          cases (s.preorder h).failure with
          | some e => simp [bind, Except.bind]
          | none => simp [bind, Except.bind, pure, Except.pure, nodesText, eq_comm]

/-- The nodes of a subtree are read as they are stored. -/
theorem readNodes_nodesText (ha : s.state.nodes.Addressed)
    (hf : (s.preorder h).failure = none) (t : TreeId) :
    Replica.readNodes t h (nodesText ((s.preorder h).visited.map Prod.snd)) =
      .ok ((s.preorder h).visited.map Prod.snd) := by
  have hnamed : ∀ n ∈ (s.preorder h).visited.map Prod.snd, n.hash = n.contentHash := by
    intro n hn
    obtain ⟨v, hv, rfl⟩ := List.mem_map.mp hn
    obtain ⟨hhash, hcontent⟩ := ha _ _ (NodeMap.getElem?_of_mem_visited hv)
    rw [hhash, hcontent]
  obtain ⟨n, rest, hn, hvisited⟩ := NodeMap.exists_visited_preorder hf
  have hhash := (ha h n hn).1
  have hvisited : (s.preorder h).visited = (h, n) :: rest := hvisited
  rw [Replica.readNodes, nodesText, NodesReply.parse_text]
  simp only [bind, Except.bind, NodeItem.mapM_toNode hnamed]
  rw [hvisited]
  simp [hhash, pure, Except.pure]

/-- A walk over nodes that are built from below fails only where it starts. -/
theorem failure_preorder_iff (hg : s.state.nodes.Grounded) :
    (s.preorder h).failure ≠ none ↔
      ∃ k, (s.preorder h).failure = some (.notFound (.node k)) ∧ s.state.nodes[k]? = none := by
  constructor
  · intro hf
    cases hn : s.state.nodes[h]? with
    | none =>
        refine ⟨h, ?_, hn⟩
        rw [Store.preorder, NodeMap.preorder_of_none hn]
        rfl
    | some n => exact absurd (hg.failure_walk .left _ (NodeMap.mem_of_getElem? hn)) hf
  · rintro ⟨k, hf, -⟩ hnone
    rw [hf] at hnone
    cases hnone

theorem gives_of_failure_eq_none (hf : (s.preorder h).failure = none) :
    (Cursor.ofStart h).Gives s.state.nodes (((s.preorder h).visited.map Prod.snd).map .ok) := by
  refine Cursor.gives_iff.mpr ⟨Trace.ends_of_failure_eq_none hf, ?_⟩
  have hf : (s.state.nodes.preorder h).failure = none := hf
  simp [Trace.items, hf, Store.preorder]

/-! ## Stores -/

theorem transparent_of_orderly (ho : s.Orderly) (ha : s.state.nodes.Addressed)
    (hn : s.state.Numbered) : Transparent s where
  understood := fun r hr => Request.parse_text hr
  root_answered := by
    intro t h
    obtain ⟨text, -, htext, -⟩ := exists_reply_root ho hn t h
    exact ⟨text, htext⟩
  root := by
    intro t h text htext
    obtain ⟨text', found, htext', hread⟩ := exists_reply_root ho hn t h
    obtain rfl : text = text' := Except.ok.inj (htext.symm.trans htext')
    exact ⟨found, hread⟩
  operations_refused := by
    intro t first last
    rw [reply_operations]
    cases s.operations t first last <;> simp [Except.map]
  operations := by
    intro t first last text htext
    rw [reply_operations] at htext
    cases hos : s.operations t first last with
    | error e =>
        rw [hos] at htext
        cases htext
    | ok os =>
        rw [hos] at htext
        cases htext
        exact ⟨os, readOperations_listText os, rfl⟩
  nodes_refused := by
    intro t h
    rw [← failure_preorder_iff ho.state.grounded]
    cases hreply : reply s (.nodes t h) with
    | ok text =>
        obtain ⟨hthere, hserved, hf, -⟩ := reply_nodes_eq_ok.mp hreply
        simp [hthere, hserved, hf]
    | error e =>
        refine ⟨fun _ => ?_, fun _ => ⟨e, rfl⟩⟩
        by_contra hno
        simp only [not_or, Bool.not_eq_false, Bool.not_eq_true, ne_eq, not_not] at hno
        rw [reply_nodes_eq_ok.mpr ⟨hno.1, hno.2.1, hno.2.2, rfl⟩] at hreply
        cases hreply
  nodes := by
    intro t h text htext
    obtain ⟨-, -, hf, rfl⟩ := reply_nodes_eq_ok.mp htext
    exact ⟨_, readNodes_nodesText ha hf t, gives_of_failure_eq_none hf⟩

/-- In a file the number of each generation has been written down, so that it fits. -/
theorem numbered_of_run {z : Codec} {steps : List Step} (hrun : run (.create z) steps = .ok s) :
    s.state.Numbered := by
  obtain ⟨s', hrun', ho, hfile⟩ := (Store.Orderly.create z).exists_run steps
  obtain rfl : s = s' := Except.ok.inj (hrun.symm.trans hrun')
  obtain ⟨f, hf, -⟩ := Option.map_eq_some_iff.mp hfile
  exact (ho.kept f hf).numbered

/-- After every run a server tells exactly what its store gives. -/
theorem transparent_of_run (hnew : s₀.IsNew) {steps : List Step} (hrun : run s₀ steps = .ok s)
    (hn : s.state.Numbered) : Transparent s :=
  transparent_of_orderly (hnew.orderly.of_run hrun) (Store.addressed_of_run hnew hrun) hn

/-- A server with a tree in a file, which tells its nodes. -/
theorem transparent_of_sampleSteps :
    ∃ s text, run (.create sampleCodec) sampleSteps = .ok s ∧ s.state.Numbered ∧
      reply s (.nodes sampleTree (.terminal [2] [20])) = .ok text ∧ Transparent s := by
  have heval : (do
      let s ← run (.create sampleCodec) sampleSteps
      let _ ← reply s (.nodes sampleTree (.terminal [2] [20]))
      return () : Except Error Unit).toOption = some () := by decide +kernel
  obtain ⟨s, hrun, hreply⟩ := bind_eq_ok.mp (eq_ok_of_toOption heval)
  obtain ⟨text, htext, -⟩ := bind_eq_ok.mp hreply
  have hn := numbered_of_run hrun
  exact ⟨s, text, hrun, hn, htext, transparent_of_run (.inr ⟨_, rfl⟩) hrun hn⟩

end MerkleStore.Server
