import MerkleStore.Proofs.Audit
import MerkleStore.Proofs.Bindings
import MerkleStore.Store.Diff

/-!
# Runs of a store

A run is a list of steps: calls, which change a store or only ask it something
(`Call`), and openings of its file (`Step`). Beside the results of a run two more
things are read off it: the nodes it makes (`contents`), which are what must not
collide, and the writes that succeed (`writesTo`).

Every run on an intact store goes through to its end and leaves an intact store with
just these writes in the histories of its trees (`Store.Intact.exists_run`). The
induction is on the steps; of a call it uses only that it is a row of events
(`Call.comes_perform`).
-/

namespace MerkleStore

/-- What can be asked of a store. -/
inductive Question
  | hasTree (t : TreeId)
  | isOutOfService (t : TreeId)
  | treeIds
  | numNodes
  | latestRoot (t : TreeId)
  | latestGeneration (t : TreeId)
  | root (t : TreeId) (generation : Nat)
  | rootsBetween (t : TreeId) (first last : Nat)
  | lastRootWith (t : TreeId) (node : Option Hash)
  | node (hash : Hash)
  | preorder (start : Hash)
  | terminal (t : TreeId) (key : Bytes)
  | ancestors (t : TreeId) (hash : Hash)
  | keysValues (t : TreeId) (root : Option Hash)
  | operations (t : TreeId) (first last : Nat)
  | diff (t : TreeId) (first last : Option Hash)

/-- What a call gives if it succeeds. -/
inductive Answer
  | done
  | flag (b : Bool)
  | number (n : Nat)
  | trees (ts : List TreeId)
  | roots (rs : List Root)
  | maybeRoot (r : Option Root)
  | hash (h : Option Hash)
  | node (n : Node)
  | items (ns : List (Except Error Node))
  | terminals (ns : List Terminal)
  | internals (ns : List Internal)
  | operations (os : List Operation)
  | changes (cs : List Change)

/-- The answer to a question. -/
def Question.answer (s : Store) : Question → Except Error Answer
  | hasTree t => .ok (.flag (s.hasTree t))
  | isOutOfService t => .ok (.flag (s.isOutOfService t))
  | treeIds => .ok (.trees s.treeIds)
  | numNodes => .ok (.number s.numNodes)
  | latestRoot t => (s.latestRoot t).map fun r => .roots [r]
  | latestGeneration t => (s.latestGeneration t).map .number
  | root t g => (s.root t g).map fun r => .roots [r]
  | rootsBetween t first last => (s.rootsBetween t first last).map .roots
  | lastRootWith t top => (s.lastRootWith t top).map .maybeRoot
  | node h => (s.node h).map .node
  | preorder h => .ok (.items (s.preorder h).items)
  | terminal t key => (s.terminal t key).map fun n => .terminals [n]
  | ancestors t h => (s.ancestors t h).map .internals
  | keysValues t top => (s.keysValues t top).map .terminals
  | operations t first last => (s.operations t first last).map .operations
  | diff t first last => (s.diff t first last).map .changes

/-- What can be done with a store. -/
inductive Call
  | addTree (t : TreeId)
  | insert (t : TreeId) (key value : Bytes) (reference : Option Hash) (side : Option Side)
  | delete (t : TreeId) (key : Bytes)
  | confirm (t : TreeId) (generation : Nat)
  | replay (t : TreeId) (operations : List Operation)
  | audit
  | ask (question : Question)

namespace Store

/-- The nodes that repeating operations makes, as far as they are repeated. -/
def replayNodes (t : TreeId) : List Operation → Store → List Node
  | [], _ => []
  | o :: os, s =>
      s.state.operationNodes t o ++
        match replayOne t o s with
        | (.ok _, s) => replayNodes t os s
        | (.error _, _) => []

/-- The writes of operations, as far as they are repeated. -/
def replayWrites (t : TreeId) : List Operation → Store → List Write
  | [], _ => []
  | o :: os, s =>
      match replayOne t o s with
      | (.ok _, s) => o.write :: replayWrites t os s
      | (.error _, _) => []

end Store

namespace Call

/-- Makes a call. -/
def perform : Call → Action Answer
  | addTree t => do
      Store.addTree t
      return .done
  | insert t key value reference side => do
      let h ← Store.insert t key value reference side
      return .hash (some h)
  | delete t key => do
      Store.delete t key
      return .done
  | confirm t g => do
      Store.confirm t g
      return .done
  | replay t os => do
      let h ← Store.replay t os
      return .hash h
  | audit => do
      Store.audit
      return .done
  | ask q => .read q.answer

/-- The nodes that a call makes, whether they are stored already or not. -/
def nodes (s : Store) : Call → List Node
  | insert t key value reference side => s.state.insertionNodes t key value reference side
  | delete t key => s.state.deletionNodes t key
  | replay t os => s.replayNodes t os
  | _ => []

/-- The writes to a tree that a call makes with success. -/
def writesTo (t : TreeId) (s : Store) : Call → List Write
  | insert t' key value reference side =>
      if t' = t ∧ (Store.insert t' key value reference side s).1.isOk then [.put key value] else []
  | delete t' key => if t' = t ∧ (Store.delete t' key s).1.isOk then [.remove key] else []
  | replay t' os => if t' = t then s.replayWrites t' os else []
  | _ => []

end Call

/-! ## Steps -/

/-- A step of a run. -/
inductive Step
  | call (c : Call)
  /-- The file is closed and opened again. -/
  | reopen

/-- The store after a step. -/
def Step.after (s : Store) : Step → Except Error Store
  | call c => .ok (c.perform s).2
  | reopen => s.reopen

/-- The store after a run. -/
def run (s : Store) (steps : List Step) : Except Error Store := steps.foldlM Step.after s

/-- What the calls of a run give; a file that cannot be opened ends it. -/
def results (s : Store) : List Step → List (Except Error Answer)
  | [] => []
  | .call c :: steps => (c.perform s).1 :: results (c.perform s).2 steps
  | .reopen :: steps =>
      match s.reopen with
      | .ok s => results s steps
      | .error err => [.error err]

/-- The nodes that a run makes, whether they are stored already or not. -/
def contents (s : Store) : List Step → List Node
  | [] => []
  | .call c :: steps => c.nodes s ++ contents (c.perform s).2 steps
  | .reopen :: steps =>
      match s.reopen with
      | .ok s => contents s steps
      | .error _ => []

/-- The writes to a tree that a run makes with success. -/
def writesTo (t : TreeId) (s : Store) : List Step → List Write
  | [] => []
  | .call c :: steps => c.writesTo t s ++ writesTo t (c.perform s).2 steps
  | .reopen :: steps =>
      match s.reopen with
      | .ok s => writesTo t s steps
      | .error _ => []

/-- No two of these nodes have different contents and one digest. -/
def CollisionFree (ns : List Node) : Prop :=
  ∀ a ∈ ns, ∀ b ∈ ns, a.contentHash = b.contentHash → a = b

instance (ns : List Node) : Decidable (CollisionFree ns) :=
  inferInstanceAs (Decidable (∀ a ∈ ns, ∀ b ∈ ns, a.contentHash = b.contentHash → a = b))

/-- A store with nothing in it, in memory or with a new file. -/
def Store.IsNew (s : Store) : Prop := s = .volatile ∨ ∃ z : Codec, s = .create z

/-- A tree of small runs. -/
def sampleTree : TreeId := ⟨.replicate 7⟩

/-- A small run: what is written before and after the file is opened again leaves one key
of two. -/
def sampleSteps : List Step :=
  [.call (.addTree sampleTree), .call (.insert sampleTree [1] [10] none none), .reopen,
    .call (.insert sampleTree [2] [20] (some (.terminal [1] [10])) (some .left)),
    .call (.delete sampleTree [1])]

/-! ## Calls as rows of events -/

/-- The write to a tree that an event is. -/
def Event.writesTo (t : TreeId) : Event → List Write
  | edit t' e => if t' = t then [e.operation.write] else []
  | start _ | confirm _ _ => []

namespace Store

variable {s s' : Store} {t : TreeId} {U : Set Node} {evs : List Event}

/-- A store comes to another one by events that make nodes of a set and are these
writes to every tree. -/
def Comes (U : Set Node) (s s' : Store) (writes : TreeId → List Write) : Prop :=
  ∃ evs, Entered s evs s' ∧ (∀ ev ∈ evs, ∀ n ∈ ev.made, n ∈ U) ∧
    ∀ t, evs.flatMap (Event.writesTo t) = writes t

variable {writes writes' : TreeId → List Write}

theorem Comes.refl (s : Store) : s.Comes U s fun _ => [] :=
  ⟨[], .nil s, by simp, fun _ => rfl⟩

theorem Entered.append {s'' : Store} {evs' : List Event} (h : Entered s evs s')
    (h' : Entered s' evs' s'') : Entered s (evs ++ evs') s'' := by
  induction h with
  | nil s => exact h'
  | cons ha hev h ih => exact .cons ha hev (ih h')

theorem Comes.trans {s'' : Store} (h : s.Comes U s' writes) (h' : s'.Comes U s'' writes') :
    s.Comes U s'' fun t => writes t ++ writes' t := by
  obtain ⟨evs, hevs, hU, hwrites⟩ := h
  obtain ⟨evs', hevs', hU', hwrites'⟩ := h'
  refine ⟨evs ++ evs', hevs.append hevs', fun ev hev => ?_, fun t => ?_⟩
  · exact (List.mem_append.mp hev).elim (hU ev) (hU' ev)
  · rw [List.flatMap_append, hwrites, hwrites']

theorem Comes.intact (h : s.Comes U s' writes) (hs : s.Intact U) (hU : Set.InjOn Node.hash U) :
    s'.Intact U := by
  obtain ⟨evs, hevs, hmade, -⟩ := h
  exact hs.entered hU hmade hevs

/-- An operation is one write if it is carried out, and nothing otherwise. -/
theorem comes_carryOut (hs : s.Intact U) {o : Operation}
    (hn : ∀ n ∈ s.state.operationNodes t o, n ∈ U) (expected : Option (Option Hash)) :
    s.Comes U (carryOut t o expected s).2 fun t' =>
      if t = t' ∧ (carryOut t o expected s).1.isOk then [o.write] else [] := by
  rcases carryOut_cases hs t o expected with ⟨err, heq⟩ | ⟨h, e, s', hv, he, hentered, heq⟩
  · simpa [heq, Except.isOk, Except.toBool] using Comes.refl s
  · obtain ⟨-, hf⟩ := Version.of_editFor he
    refine ⟨[.edit t e], ?_, ?_, fun t' => ?_⟩
    · rw [heq]
      exact .single (hv.admits hf) hentered
    · intro ev hev
      obtain rfl := List.mem_singleton.mp hev
      rw [State.operationNodes_eq hv.tree hv.shows he] at hn
      exact hn
    · simp [Event.writesTo, heq, Except.isOk, Except.toBool, Edit.write_operation_of_editFor he]

theorem comes_enter {ev : Event} (ha : s.state.Admits ev) (hmade : ev.made = [])
    (hwrites : ∀ t, ev.writesTo t = []) : s.Comes U (enter ev s).2 fun _ => [] := by
  rcases enter_cases ev s with ⟨err, heq⟩ | ⟨s', heq⟩
  · rw [heq]
    exact .refl s
  · rw [heq]
    exact ⟨[ev], .single ha heq, by simp [hmade], by simp [hwrites]⟩

theorem comes_replayFrom (hs : s.Intact U) (hU : Set.InjOn Node.hash U) {os : List Operation}
    (hn : ∀ n ∈ replayNodes t os s, n ∈ U) (root : Option Hash) :
    s.Comes U (replayFrom t root os s).2 fun t' =>
      if t = t' then replayWrites t os s else [] := by
  induction os generalizing s root with
  | nil => simpa [replayFrom, replayWrites, pure, Action.done] using Comes.refl s
  | cons o os ih =>
      simp only [replayNodes, List.mem_append] at hn
      have hone := comes_carryOut hs (fun n h => hn n (.inl h)) (some o.root)
      rw [← replayOne_eq] at hone
      simp only [replayFrom, replayWrites, bind, Action.andThen]
      obtain ⟨result, s', hreplay⟩ : ∃ result s', replayOne t o s = (result, s') := ⟨_, _, rfl⟩
      rw [hreplay] at hone hn ⊢
      cases result with
      | error err => simpa [Except.isOk, Except.toBool] using hone
      | ok _ =>
          have hrest := ih (hone.intact hs hU) (fun n h => hn n (.inr h)) o.root
          have hboth := hone.trans hrest
          simp only [Except.isOk, Except.toBool, and_true] at hboth
          convert hboth using 2 with t'
          split <;> rfl

theorem comes_replay (hs : s.Intact U) (hU : Set.InjOn Node.hash U) {os : List Operation}
    (hn : ∀ n ∈ replayNodes t os s, n ∈ U) :
    s.Comes U (replay t os s).2 fun t' => if t = t' then replayWrites t os s else [] := by
  simp only [replay, bind, Action.andThen, Action.read]
  cases hr : s.latestRoot t with
  | ok r => exact comes_replayFrom hs hU hn r.node
  | error err =>
      -- without a latest root the tree is unknown, and nothing is repeated
      have hunknown : s.state.trees[t]? = none := by
        cases ht : s.state.trees[t]? with
        | none => rfl
        | some h =>
            simp [latestRoot, servedTree, requireInService, hs.isOutOfService t, State.tree, ht,
              bind, Except.bind, pure, Except.pure] at hr
      have hnone : replayWrites t os s = [] := by
        cases os with
        | nil => rfl
        | cons o os =>
            rw [replayWrites, replayOne_eq, carryOut_unknown (hs.isOutOfService t) hunknown]
      simpa [hnone] using Comes.refl s

end Store

/-- Giving the result of an action another form changes nothing else. -/
theorem Action.andThen_done {α β : Type} (x : Action α) (f : α → β) (s : Store) :
    (x.andThen fun a => done (f a)) s = ((x s).1.map f, (x s).2) := by
  rw [andThen]
  obtain ⟨_ | _, _⟩ := x s <;> rfl

theorem isOk_map {α β : Type} (x : Except Error α) (f : α → β) : (x.map f).isOk = x.isOk := by
  cases x <;> rfl

namespace Call

variable {s : Store} {U : Set Node}

/-- Every call comes to its end by events. -/
theorem comes_perform (hs : s.Intact U) (hU : Set.InjOn Node.hash U) (c : Call)
    (hn : ∀ n ∈ c.nodes s, n ∈ U) :
    s.Comes U (c.perform s).2 fun t => c.writesTo t s := by
  have hstay : s.Comes U s fun _ => [] := .refl s
  cases c with
  | addTree t =>
      simp only [perform, bind, pure, Action.andThen_done, Store.addTree_eq]
      split
      · exact hstay
      · next hno => exact Store.comes_enter (Store.admits_start hno) rfl fun _ => rfl
  | insert t key value reference side =>
      have hcarry := Store.comes_carryOut (t := t) hs
        (o := .insertion ⟨default, key, value, reference, side, .pending⟩) hn none
      simpa only [perform, bind, pure, Action.andThen_done, writesTo, Store.insert_eq, isOk_map,
        Operation.write] using hcarry
  | delete t key =>
      have hcarry := Store.comes_carryOut (t := t) hs (o := .deletion ⟨none, key, .pending⟩) hn none
      simp only [perform, bind, pure, Action.andThen_done]
      exact hcarry
  | confirm t g =>
      simp only [perform, bind, pure, Action.andThen_done, Store.confirm_eq]
      cases hr : s.root t g with
      | error err => exact hstay
      | ok r =>
          dsimp only
          split
          · exact hstay
          · exact Store.comes_enter (Store.admits_confirm hr) rfl fun _ => rfl
  | replay t os =>
      have hreplay := Store.comes_replay hs hU hn
      simpa only [perform, bind, pure, Action.andThen_done, writesTo] using hreplay
  | audit =>
      simp only [perform, bind, pure, Action.andThen_done, hs.audit]
      exact hstay
  | ask q => exact hstay

end Call

/-! ## Runs -/

namespace Store

variable {s s' : Store} {U : Set Node}

/-- The writes in the history of a tree. -/
def writesOf (s : Store) (t : TreeId) : List Write :=
  match s.state.trees[t]? with
  | none => []
  | some h => h.operations.map Operation.write

theorem writesOf_alike {s s' : Store} (ha : s'.state.Alike s.state) (t : TreeId) :
    s'.writesOf t = s.writesOf t := by
  rw [writesOf, writesOf]
  cases ht : s'.state.trees[t]? with
  | none => rw [ha.getElem?_eq_none ht]
  | some h =>
      obtain ⟨h', ht', -, ho⟩ := ha.exists_getElem? ht
      rw [ht']
      simp only [ho]

theorem writesOf_enter {ev : Event} (ha : s.state.Admits ev) (hev : enter ev s = (.ok (), s'))
    (t : TreeId) : s'.writesOf t = s.writesOf t ++ ev.writesTo t := by
  simp only [writesOf, state_of_enter hev]
  cases ev with
  | start t' =>
      have ht' : s.state.trees[t']? = none := ha
      by_cases heq : t' = t
      · subst heq
        simp [State.after, Event.writesTo, ht', History.start]
      · simp [State.after, Event.writesTo, heq]
  | edit t' e =>
      obtain ⟨h, ht', -⟩ := ha
      by_cases heq : t' = t
      · subst heq
        simp [State.after, Event.writesTo, ht', History.extend]
      · simp [State.after, Event.writesTo, ht', heq]
  | confirm t' g =>
      obtain ⟨h, ht', -⟩ := ha
      by_cases heq : t' = t
      · subst heq
        simp [State.after, Event.writesTo, ht', History.updateStatus]
      · simp [State.after, Event.writesTo, ht', heq]

theorem Comes.writesOf {writes : TreeId → List Write} (h : s.Comes U s' writes) (t : TreeId) :
    s'.writesOf t = s.writesOf t ++ writes t := by
  obtain ⟨evs, hevs, -, hwrites⟩ := h
  rw [← hwrites]
  clear hwrites
  induction hevs with
  | nil s => simp
  | cons ha hev h ih => rw [ih, writesOf_enter ha hev, List.flatMap_cons, List.append_assoc]

/-- Every tree of one store is in another one, with the same hashes at the roots of
its generations, and perhaps with more generations. -/
def Precedes (s s' : Store) : Prop :=
  ∀ (t : TreeId) (h : History), s.state.trees[t]? = some h →
    ∃ h', s'.state.trees[t]? = some h' ∧ h.roots.map Root.node <+: h'.roots.map Root.node

theorem Precedes.refl (s : Store) : s.Precedes s := fun _ h ht => ⟨h, ht, List.prefix_refl _⟩

theorem Precedes.trans {s'' : Store} (h : s.Precedes s') (h' : s'.Precedes s'') :
    s.Precedes s'' := by
  intro t k hk
  obtain ⟨k', hk', hprefix⟩ := h t k hk
  obtain ⟨k'', hk'', hprefix'⟩ := h' t k' hk'
  exact ⟨k'', hk'', hprefix.trans hprefix'⟩

theorem precedes_alike (ha : s'.state.Alike s.state) : s.Precedes s' := by
  intro t h ht
  obtain ⟨h', ht', hr, -⟩ := ha.symm.exists_getElem? ht
  exact ⟨h', ht', hr ▸ List.prefix_refl _⟩

theorem precedes_enter {ev : Event} (ha : s.state.Admits ev)
    (hev : enter ev s = (.ok (), s')) : s.Precedes s' := by
  have hchanged {t : TreeId} {h : History} (h' : History) (ht : s.state.trees[t]? = some h)
      (hroots : h.roots.map Root.node <+: h'.roots.map Root.node)
      (htrees : ∀ k : TreeId, s'.state.trees[k]? = if t = k then some h' else s.state.trees[k]?) :
      s.Precedes s' := by
    intro k hk hsome
    by_cases heq : t = k
    · subst heq
      rw [ht] at hsome
      cases hsome
      exact ⟨h', by rw [htrees, if_pos rfl], hroots⟩
    · exact ⟨hk, by rw [htrees, if_neg heq, hsome], List.prefix_refl _⟩
  have hstate := state_of_enter hev
  cases ev with
  | start t =>
      have ht : s.state.trees[t]? = none := ha
      intro k h hsome
      have hne : t ≠ k := fun heq => by rw [← heq, ht] at hsome; cases hsome
      exact ⟨h, by simp [hstate, State.after, hne, hsome], List.prefix_refl _⟩
  | edit t e =>
      obtain ⟨h, ht, -⟩ := ha
      refine hchanged (h.extend e) ht ?_ fun k => by simp [hstate, State.after, ht]
      simp [History.extend]
  | confirm t g =>
      obtain ⟨h, ht, -⟩ := ha
      refine hchanged (h.updateStatus g .committed) ht ?_ fun k => by
        simp [hstate, State.after, ht]
      exact h.map_node_updateStatus g .committed ▸ List.prefix_refl _

theorem Comes.precedes {writes : TreeId → List Write} (h : s.Comes U s' writes) :
    s.Precedes s' := by
  obtain ⟨evs, hevs, -⟩ := h
  induction hevs with
  | nil s => exact .refl s
  | cons ha hev h ih => exact (precedes_enter ha hev).trans ih

/-- Every run goes through and leaves an intact store that goes on from the one before
with the writes it has made. -/
theorem Intact.exists_run (hs : s.Intact U) (hU : Set.InjOn Node.hash U) (steps : List Step)
    (hn : ∀ n ∈ contents s steps, n ∈ U) :
    ∃ s', run s steps = .ok s' ∧ s'.Intact U ∧ s.Precedes s' ∧
      ∀ t, s'.writesOf t = s.writesOf t ++ MerkleStore.writesTo t s steps := by
  induction steps generalizing s with
  | nil => exact ⟨s, rfl, hs, .refl s, by simp [writesTo]⟩
  | cons step steps ih =>
      cases step with
      | call c =>
          simp only [contents, List.mem_append] at hn
          -- a call is a row of events, each of which keeps the store intact
          have hc := c.comes_perform hs hU fun n h => hn n (.inl h)
          obtain ⟨s', hrun, hs', hprecedes, hwrites⟩ :=
            ih (hc.intact hs hU) fun n h => hn n (.inr h)
          refine ⟨s', hrun, hs', hc.precedes.trans hprecedes, fun t => ?_⟩
          rw [hwrites, hc.writesOf, MerkleStore.writesTo, List.append_assoc]
      | reopen =>
          -- what is opened differs in its indexes at most, and they are no part of the rest
          obtain ⟨s₁, hreopen, hs₁, halike, -⟩ := hs.exists_reopen
          simp only [contents, hreopen] at hn
          obtain ⟨s', hrun, hs', hprecedes, hwrites⟩ := ih hs₁ hn
          refine ⟨s', ?_, hs', (precedes_alike halike).trans hprecedes, fun t => ?_⟩
          · simp only [run, List.foldlM_cons, Step.after, hreopen, bind, Except.bind]
            exact hrun
          · simp only [hwrites, MerkleStore.writesTo, hreopen, writesOf_alike halike]

theorem IsNew.intact (hs : s.IsNew) (U : Set Node) : s.Intact U := by
  rcases hs with rfl | ⟨z, rfl⟩
  · exact .volatile U
  · exact .create z U

theorem IsNew.writesOf (hs : s.IsNew) (t : TreeId) : s.writesOf t = [] := by
  rcases hs with rfl | ⟨z, rfl⟩ <;> simp [Store.writesOf, volatile, create, State.empty]

theorem hash_of_mem_replayNodes {t : TreeId} {os : List Operation} {n : Node}
    (hn : n ∈ replayNodes t os s) : n.hash = n.contentHash := by
  induction os generalizing s with
  | nil => simp [replayNodes] at hn
  | cons o os ih =>
      rcases List.mem_append.mp hn with hn | hn
      · exact State.hash_of_mem_operationNodes hn
      · split at hn
        · exact ih hn
        · simp at hn

end Store

theorem Call.hash_of_mem_nodes {s : Store} {c : Call} {n : Node} (hn : n ∈ c.nodes s) :
    n.hash = n.contentHash := by
  cases c with
  | insert t key value reference side =>
      exact State.hash_of_mem_operationNodes (t := t)
        (o := .insertion ⟨default, key, value, reference, side, .pending⟩) hn
  | delete t key =>
      exact State.hash_of_mem_operationNodes (t := t) (o := .deletion ⟨none, key, .pending⟩) hn
  | replay t os => exact Store.hash_of_mem_replayNodes hn
  | addTree t | confirm t g | audit | ask q => simp [nodes] at hn

/-- What a run makes is named by its content. -/
theorem hash_of_mem_contents {s : Store} {steps : List Step} {n : Node}
    (hn : n ∈ contents s steps) : n.hash = n.contentHash := by
  induction steps generalizing s with
  | nil => simp [contents] at hn
  | cons step steps ih =>
      cases step with
      | call c => exact (List.mem_append.mp hn).elim Call.hash_of_mem_nodes ih
      | reopen =>
          simp only [contents] at hn
          split at hn
          · exact ih hn
          · simp at hn

theorem CollisionFree.injOn_hash {ns : List Node} (hc : CollisionFree ns)
    (hns : ∀ n ∈ ns, n.hash = n.contentHash) : Set.InjOn Node.hash {n | n ∈ ns} := by
  intro a ha b hb h
  rw [hns a ha, hns b hb] at h
  exact hc a ha b hb h

end MerkleStore
