import MerkleStore.Proofs.Framing
import MerkleStore.Proofs.Replay

/-!
# Sharing nodes

Trees with a common past share its nodes. An edit all of whose nodes are stored stores none
(`Store.exists_enter_of_stored`), and every version a tree has had is stored. So the operations
of a tree, repeated on a new one, lead through stored versions only (`Store.replayFrom_of_stored`):
the new tree gets the same generations, and the store has the nodes it had before. Nor does the
journal stand in the way, for it took the leaves of these operations before, each with the operation
that put it in. `shares_of_run` says so for all stores that runs lead to.
-/

namespace MerkleStore

/-! ## Nodes that are stored -/

/-- Nodes whose hashes are taken are not added. -/
theorem NodeMap.addAll_of_stored {nodes : NodeMap} {ns : List Node}
    (h : ∀ n ∈ ns, n.hash ∈ nodes) : nodes.addAll ns = nodes := by
  induction ns with
  | nil => rfl
  | cons n ns ih =>
      have hn : nodes.insertIfNew n.hash n = nodes := insertIfNew_of_mem (h n List.mem_cons_self)
      show addAll (nodes.insertIfNew n.hash n) ns = nodes
      rw [hn, ih fun m hm => h m (List.mem_cons_of_mem _ hm)]

/-- Nor are they collected. -/
theorem Transaction.addNodes_of_stored {nodes : NodeMap} {ns : List Node}
    (h : ∀ n ∈ ns, n.hash ∈ nodes) (tx : Transaction) : tx.addNodes nodes ns = tx := by
  induction ns with
  | nil => rfl
  | cons n ns ih =>
      have hn : tx.addNode nodes n = tx := by
        simp [addNode, Std.ExtTreeMap.contains_iff_mem, h n List.mem_cons_self]
      show (tx.addNode nodes n).addNodes nodes ns = tx
      rw [hn, ih fun m hm => h m (List.mem_cons_of_mem _ hm)]

namespace Store

open Edit

variable {s s' s₀ : Store} {a b t : TreeId} {h : History} {v w : Version} {e : Edit}
  {es : List Edit} {U : Set Node} {n latest : Nat}

/-- An edit whose nodes are stored is a root and an operation only. The journal takes them if it
takes the operations that concern the leaf. -/
theorem exists_enter_of_stored (hv : s.Serves t h e.source)
    (hmade : ∀ n ∈ e.made, n.hash ∈ s.state.nodes)
    (hframed : ∀ f, s.journal = some f →
      h.latest.generation + 1 < Record.wordBound ∧ e.terminal.Framed f.codec) :
    ∃ s', enter (.edit t e) s = (.ok (), s') ∧ s'.state.nodes = s.state.nodes := by
  have hrecords : (s.state.transactionFor (.edit t e)).records =
      Record.generation t (h.latest.generation + 1) e.operation := by
    simp only [State.transactionFor, hv.tree, State.draftOf,
      Transaction.addNodes_of_stored hmade, State.finish]
    simp [Record.generation, Transaction.empty, Transaction.add, Transaction.addUpdate, Root.next,
      hv.inOrder.tree_latest]
  have hfits : ∀ f, s.journal = some f →
      ∃ frame, Frame.encode f.codec (s.state.transactionFor (.edit t e)).records = .ok frame := by
    intro f hf
    obtain ⟨hnumber, hleaf⟩ := hframed f hf
    rw [hrecords]
    exact hleaf t _ _ e.concerns_terminal hnumber
  obtain ⟨s', hentered, hstate⟩ := exists_enter hfits
  refine ⟨s', hentered, ?_⟩
  simp only [hstate, State.after, hv.tree]
  exact NodeMap.addAll_of_stored hmade

/-- Operations that lead through stored versions are repeated and store no node. -/
theorem replayFrom_of_stored (hs : s.Intact U) (hU : Set.InjOn Node.hash U)
    (hstored : U ⊆ s.state.nodes.stored) (hv : s.Serves t h v) (hl : Leads v es w)
    (hes : ∀ e ∈ es, e.target.MadeOf U)
    (hframed : ∀ f, s.journal = some f →
      h.latest.generation + es.length < Record.wordBound ∧
        ∀ e ∈ es, e.terminal.Framed f.codec)
    {os : List Operation}
    (hos : os.map (Operation.withStatus .pending) = es.map Edit.operation) :
    ∃ s' h', replayFrom t v.hash os s = (.ok w.hash, s') ∧ s'.state.nodes = s.state.nodes ∧
      s'.Serves t h' w ∧ Repeated h h' es := by
  induction es generalizing s h v os with
  | nil =>
      obtain rfl := List.map_eq_nil_iff.mp hos
      obtain rfl : v = w := hl
      exact ⟨s, h, rfl, rfl, hv, .nil h⟩
  | cons e es ih =>
      obtain ⟨o, os, rfl, ho, hos⟩ := List.map_eq_cons_iff.mp hos
      obtain ⟨rfl, hf, hl⟩ := hl
      have he := hes e List.mem_cons_self
      obtain ⟨-, hroot, hone⟩ := replayOne_of_edit hs hU hv hf ho
      -- what the edit makes is under its target, which is stored
      have hmade : ∀ n ∈ e.made, n.hash ∈ s.state.nodes := by
        intro n hn
        obtain ⟨c, hc, rfl⟩ := exists_of_mem_made hn
        exact NodeMap.mem_of_getElem? (hstored (he c hc))
      obtain ⟨s₁, hentered, hnodes⟩ := exists_enter_of_stored hv hmade fun f hf => by
        obtain ⟨hnumber, hleaves⟩ := hframed f hf
        rw [List.length_cons] at hnumber
        exact ⟨by omega, hleaves e List.mem_cons_self⟩
      obtain ⟨hs₁, hv₁⟩ := serves_enter hs hU hv hf he hentered
      have hframed₁ : ∀ f, s₁.journal = some f →
          (h.extend e).latest.generation + es.length < Record.wordBound ∧
            ∀ e' ∈ es, e'.terminal.Framed f.codec := by
        intro f₁ hf₁
        obtain ⟨f, -, hf, hcodec, -⟩ := exists_encode_of_enter hentered hf₁
        obtain ⟨hnumber, hleaves⟩ := hframed f hf
        rw [List.length_cons, Nat.add_comm es.length, ← Nat.add_assoc] at hnumber
        rw [hcodec, History.latest_extend]
        exact ⟨hnumber, fun e' he' => hleaves e' (List.mem_cons_of_mem _ he')⟩
      obtain ⟨s', h', hreplay, hnodes', hv', hrepeated⟩ := ih hs₁ (hnodes ▸ hstored) hv₁ hl
        (fun e' he' => hes e' (List.mem_cons_of_mem _ he')) hframed₁ hos
      refine ⟨s', h', ?_, hnodes'.trans hnodes, hv', hrepeated.cons⟩
      simp only [replayFrom, bind, Action.andThen, hone, hentered]
      rw [← hroot, hreplay]

/-! ## A new tree -/

/-- The first `n` operations of one tree, repeated on another one that has only its generation 0,
give it `n` generations with the same hashes at their roots, and no node is stored for them. -/
def Shares (s : Store) (a b : TreeId) (n : Nat) : Prop :=
  ∃ os olds last s', s.operations a 0 n = .ok os ∧ os.length = n ∧
    s.rootsBetween a 1 (n + 1) = .ok olds ∧ olds.length = n ∧ s.root a n = .ok last ∧
    replay b os s = (.ok last.node, s') ∧ s'.state.nodes = s.state.nodes ∧
    s.Continues s' b 0 olds os

/-- All nodes of an intact store are stored under the hash they claim. -/
theorem Intact.stored (hs : s.Intact U) : s.Intact s.state.nodes.stored where
  sound := hs.sound
  within := by
    intro k m hm
    rwa [NodeMap.mem_stored, (hs.sound.nodes.hash_eq hm).1]
  served := hs.served
  kept := hs.kept

theorem Intact.exists_serves_of_latestGeneration (hs : s.Intact U)
    (hg : s.latestGeneration t = .ok n) :
    ∃ h es v, h.Made s.state.nodes t es v ∧ s.Serves t h v ∧ es.length = n := by
  cases htop : s.latestRoot t with
  | error err => simp [latestGeneration, htop, bind, Except.bind] at hg
  | ok top =>
      obtain ⟨h, ht⟩ := exists_of_latestRoot htop
      obtain ⟨es, v, hm, hv⟩ := hs.exists_serves ht
      rw [latestGeneration_eq hv, hm.operations, List.length_map, Except.ok.injEq] at hg
      exact ⟨h, es, v, hm, hv, hg⟩

/-- A tree that has only its generation 0 can take over the generations of any other one. -/
theorem Intact.shares (hs : s.Intact U) (hf : s.Framed) (ha : s.latestGeneration a = .ok latest)
    (hn : n ≤ latest) (hb : s.latestGeneration b = .ok 0) : s.Shares a b n := by
  obtain ⟨h, es, v, hm, hv, rfl⟩ := hs.exists_serves_of_latestGeneration ha
  obtain ⟨k, es', v', hm', hv', hempty⟩ := hs.exists_serves_of_latestGeneration hb
  obtain rfl := List.length_eq_zero_iff.mp hempty
  obtain rfl : none = v' := hm'.leads
  have hstart : k.latest.generation = 0 := by
    rw [hm'.inOrder.generation_latest, hm'.operations, List.length_map, hempty]
  -- the way to the version at generation `n`, and its root
  obtain ⟨w, hw⟩ : ∃ w, (versions none es)[n]? = some w :=
    ⟨_, List.getElem?_eq_getElem (by rw [length_versions]; omega)⟩
  obtain ⟨hl, -⟩ := hm.leads.split hw
  obtain ⟨last, hlast⟩ : ∃ last, h.roots[n]? = some last :=
    ⟨_, List.getElem?_eq_getElem (by rw [hm.length_roots]; omega)⟩
  have hnode : last.node = w.hash := by
    obtain ⟨u, hu, hnode⟩ := hm.node_root hlast
    rwa [Option.some.inj (hu.symm.trans hw)] at hnode
  obtain ⟨os, olds, hos, holds, hpending, hhashes⟩ := exists_operations hv hm (Nat.zero_le n) hn
  rw [List.drop_zero] at hpending hhashes
  have hframed : ∀ f, s.journal = some f →
      k.latest.generation + (es.take n).length < Record.wordBound ∧
        ∀ e ∈ es.take n, e.terminal.Framed f.codec := by
    intro f hj
    have hnumbered := (hs.kept f hj).numbered a h hv.tree
    rw [hm.length_roots] at hnumbered
    rw [hstart, List.length_take]
    exact ⟨by omega, fun e he => (hf f hj).2 _ _ (hm.stored_terminal (List.mem_of_mem_take he))⟩
  obtain ⟨s', h', hreplay, hnodes, hv'', hrepeated⟩ := replayFrom_of_stored hs.stored
    s.state.nodes.injOn_hash_stored subset_rfl hv' hl
    (fun e he => hm.stored e (List.mem_of_mem_take he)) hframed hpending
  have hcontinues := hrepeated.continues hv' hv'' hhashes hpending
  rw [hstart] at hcontinues
  refine ⟨os, olds, last, s', hos, ?_, holds, ?_, (root_eq_ok hv).mpr hlast, ?_, hnodes,
    hcontinues⟩
  · simpa [hn] using congrArg List.length hpending
  · simpa [hn] using congrArg List.length hhashes
  · rw [hnode, ← hreplay]
    simp only [replay, bind, Action.andThen, Action.read, latestRoot_eq hv', hv'.shows.root]

/-- A tree that is created stands beside the others. -/
theorem servedTree_of_addTree (hs : s.Intact U) (hs' : s'.Intact U)
    (hentered : enter (.start b) s = (.ok (), s')) :
    s'.servedTree t = if b = t then .ok (.start (.empty b)) else s.servedTree t := by
  simp only [servedTree, requireInService, hs.isOutOfService, hs'.isOutOfService,
    Bool.false_eq_true, if_false, State.tree, state_of_enter hentered, State.after,
    State.getElem?_setTree, bind, Except.bind]
  by_cases h : b = t <;> simp [h]

/-- A tree that is created takes over the generations of any other one. -/
theorem Intact.exists_shares_of_addTree (hs : s.Intact U) (hU : Set.InjOn Node.hash U)
    (hf : s.Framed) (ha : s.latestGeneration a = .ok latest) (hn : n ≤ latest)
    (hb : s.hasTree b = false) :
    ∃ s', addTree b s = (.ok (), s') ∧ s'.state.nodes = s.state.nodes ∧
      s'.operations a 0 n = s.operations a 0 n ∧ s'.Shares a b n := by
  obtain ⟨s', hadd⟩ := exists_addTree hb
  have hentered : Store.enter (.start b) s = (.ok (), s') := by
    rwa [addTree_eq, if_neg (by simp [hb])] at hadd
  have hadmits : s.state.Admits (.start b) := admits_start (by simp [hb])
  have hs' : s'.Intact U := by
    have := hs.enter hU (by simp [Event.made]) hadmits
    rwa [hentered] at this
  have hserved (t : TreeId) := servedTree_of_addTree (t := t) hs hs' hentered
  have hne : b ≠ a := by
    rintro rfl
    obtain ⟨h, es, v, -, hv, -⟩ := hs.exists_serves_of_latestGeneration ha
    rw [hasTree_iff.mpr ⟨h, hv.tree⟩] at hb
    cases hb
  have hother : s'.servedTree a = s.servedTree a := by rw [hserved, if_neg hne]
  have hnew : s'.latestGeneration b = .ok 0 := by
    simp only [latestGeneration, latestRoot, hserved, if_true, bind, Except.bind]
    rfl
  refine ⟨s', hadd, by rw [state_of_enter hentered]; rfl, ?_, ?_⟩
  · simp only [operations, hother]
  · refine hs'.shares (hf.enter hadmits hentered) ?_ hn hnew
    simpa only [latestGeneration, latestRoot, hother] using ha

end Store

theorem takesAgain_sampleCodec : sampleCodec.TakesAgain :=
  Codec.takesAgain_of_length_le fun _ _ =>
    PackingTable.length_encode_le_of_le (by decide +kernel)

end MerkleStore
