import MerkleStore.Proofs.Run

/-!
# What every call keeps

A call changes a store by commits, and an audit by taking a tree out of service. What is
committed is a draft, the nodes of which are named by their contents
(`Transaction.Genuine`). So a property of stores that such commits keep is kept by every call
(`Store.Stable.perform`), in whatever state the store is, and whether the call goes through or
fails.
-/

namespace MerkleStore

/-! ## What calls commit -/

namespace Transaction

/-- The nodes that have been collected are named by their contents. -/
def Genuine (tx : Transaction) : Prop := ∀ n, .node n ∈ tx.records → n.hash = n.contentHash

variable {tx tx' : Transaction} {s : State} {u u' : IndexChange} {path : List Hash}
  {old new root : Hash}

theorem Genuine.empty : empty.Genuine := by
  intro n hn
  cases hn

theorem Genuine.addNode (htx : tx.Genuine) {n : Node} (hn : n.hash = n.contentHash)
    (nodes : NodeMap) : (tx.addNode nodes n).Genuine := by
  rw [Transaction.addNode]
  split
  · exact htx
  · intro m hm
    rcases List.mem_append.mp hm with hm | hm
    · exact htx m hm
    · obtain rfl := Record.node.inj (List.mem_singleton.mp hm)
      exact hn

theorem Genuine.add (htx : tx.Genuine) {r : Record} (hr : ∀ n, r ≠ .node n) :
    (tx.add r).Genuine := by
  intro n hn
  rcases List.mem_append.mp hn with hn | hn
  · exact htx n hn
  · exact absurd (List.mem_singleton.mp hn).symm (hr n)

theorem Genuine.renewPath (htx : tx.Genuine)
    (hr : s.renewPath tx u path old new = .ok (tx', u', root)) : tx'.Genuine := by
  induction path generalizing tx u old new with
  | nil =>
      cases hr
      exact htx
  | cons ancestor path ih =>
      obtain ⟨n, -, hrest⟩ := bind_eq_ok.mp hr
      cases hm : n.internal?.bind (·.exchange? old new) with
      | none =>
          rw [hm] at hrest
          cases hrest
      | some m =>
          rw [hm] at hrest
          refine ih (htx.addNode ?_ s.nodes) hrest
          obtain ⟨m', -, hexchange⟩ := Option.bind_eq_some_iff.mp hm
          rw [Internal.exchange?] at hexchange
          split at hexchange
          · cases hexchange
            rfl
          · split at hexchange <;> cases hexchange
            rfl

theorem Genuine.finish (htx : tx.Genuine) (t : TreeId) (h : History) (u : IndexChange)
    (root : Option Hash) (o : Operation) : (State.finish t h tx u root o).transaction.Genuine :=
  (htx.add (by simp)).add (by simp)

end Transaction

namespace State

variable {s : State} {t : TreeId} {key value : Bytes} {d : Draft}

theorem genuine_draftInsertion {reference : Option Hash} {side : Option Side}
    (hd : s.draftInsertion t key value reference side = .ok d) : d.transaction.Genuine := by
  obtain ⟨h, -, hd⟩ := bind_eq_ok.mp hd
  have hleaf := Transaction.Genuine.empty.addNode (n := .terminal (.ofPair key value)) rfl s.nodes
  split at hd
  · cases hd
  · obtain ⟨place, -, hd⟩ := bind_eq_ok.mp hd
    cases place with
    | top =>
        cases hd
        exact hleaf.finish t h _ _ _
    | beside r side path =>
        have hjoined := hleaf.addNode (n := .internal (.join r (.terminal key value) side))
          (by cases side <;> rfl) s.nodes
        obtain ⟨⟨tx, u, root⟩, hrenew, hd⟩ := bind_eq_ok.mp hd
        cases hd
        exact (hjoined.renewPath hrenew).finish t h _ _ _

theorem genuine_draftDeletion (hd : s.draftDeletion t key = .ok d) : d.transaction.Genuine := by
  obtain ⟨h, -, hd⟩ := bind_eq_ok.mp hd
  split at hd
  · cases hd
  · split at hd
    · cases hd
    · cases hd
      exact Transaction.Genuine.empty.finish t h _ _ _
    · obtain ⟨n, -, hd⟩ := bind_eq_ok.mp hd
      split at hd
      · cases hd
      · obtain ⟨⟨tx, u, root⟩, hrenew, hd⟩ := bind_eq_ok.mp hd
        cases hd
        exact (Transaction.Genuine.empty.renewPath hrenew).finish t h _ _ _

end State

/-! ## Actions -/

namespace Action

variable {α β : Type} {p : Store → Prop}

/-- Whether an action goes through or fails, the store keeps a property. -/
def Preserves (p : Store → Prop) (x : Action α) : Prop := ∀ s, p s → p (x s).2

theorem Preserves.done (a : α) : Preserves p (done a) := fun _ hs => hs

theorem Preserves.fail (e : Error) : Preserves p (fail e : Action α) := fun _ hs => hs

theorem Preserves.read (f : Store → Except Error α) : Preserves p (read f) := fun _ hs => hs

/-- What is read is what some store gives. -/
theorem Preserves.read_andThen {f : Store → Except Error α} {next : α → Action β}
    (hnext : ∀ s a, f s = .ok a → Preserves p (next a)) :
    Preserves p ((Action.read f).andThen next) := by
  intro s hs
  simp only [Action.andThen, Action.read]
  cases heq : f s with
  | error e => exact hs
  | ok a => exact hnext s a heq s hs

theorem Preserves.andThen {x : Action α} {next : α → Action β} (hx : Preserves p x)
    (hnext : ∀ a, Preserves p (next a)) : Preserves p (x.andThen next) := by
  intro s hs
  have hafter := hx s hs
  rw [Action.andThen]
  cases heq : x s with
  | mk result s' =>
      rw [heq] at hafter
      cases result with
      | error e => exact hafter
      | ok a => exact hnext a s' hafter

end Action

namespace Store

/-- Commits keep a property of stores if what they commit is genuine, and so does taking trees
out of service. -/
structure Stable (p : Store → Prop) : Prop where
  commit : ∀ tx : Transaction, tx.Genuine → Action.Preserves p (commit tx)
  takeOutOfService : ∀ s t, p s → p (s.takeOutOfService t)

variable {p : Store → Prop}

namespace Stable

/-- A record that is no node can be committed on its own. -/
theorem commitOne (hp : Stable p) {r : Record} (hr : ∀ n, r ≠ .node n) :
    Action.Preserves p (Store.commit (Transaction.empty.add r)) :=
  hp.commit _ (Transaction.Genuine.empty.add hr)

theorem commitDraft (hp : Stable p) (t : TreeId) {d : Draft} (hd : d.transaction.Genuine)
    (expected : Option (Option Hash)) : Action.Preserves p (commitDraft t d expected) := by
  cases expected with
  | none => exact hp.commit d.transaction hd
  | some root =>
      simp only [Store.commitDraft]
      split
      · exact hp.commit d.transaction hd
      · exact .fail _

theorem addTree (hp : Stable p) (t : TreeId) : Action.Preserves p (addTree t) := by
  intro s hs
  rw [Store.addTree]
  split
  · exact hs
  · exact hp.commitOne (by simp) s hs

theorem insertToward (hp : Stable p) (t : TreeId) (key value : Bytes) (reference : Option Hash)
    (side : Option Side) (expected : Option (Option Hash)) :
    Action.Preserves p (insertToward t key value reference side expected) := by
  refine (Action.Preserves.read _).andThen fun _ => .read_andThen fun s d hd => ?_
  exact (hp.commitDraft t (State.genuine_draftInsertion hd) expected).andThen fun _ => .done _

theorem deleteToward (hp : Stable p) (t : TreeId) (key : Bytes)
    (expected : Option (Option Hash)) : Action.Preserves p (deleteToward t key expected) := by
  refine (Action.Preserves.read _).andThen fun _ => .read_andThen fun s d hd => ?_
  exact hp.commitDraft t (State.genuine_draftDeletion hd) expected

theorem confirm (hp : Stable p) (t : TreeId) (g : Nat) : Action.Preserves p (confirm t g) := by
  refine (Action.Preserves.read _).andThen fun r => ?_
  split
  · exact .done ()
  · exact hp.commitOne (by simp)

theorem replayOne (hp : Stable p) (t : TreeId) (o : Operation) :
    Action.Preserves p (replayOne t o) := by
  cases o with
  | insertion d =>
      exact (hp.insertToward t d.key d.value d.reference d.side _).andThen fun _ => .done ()
  | deletion d => exact hp.deleteToward t d.key _

theorem replayFrom (hp : Stable p) (t : TreeId) (root : Option Hash) (os : List Operation) :
    Action.Preserves p (replayFrom t root os) := by
  induction os generalizing root with
  | nil => exact .done root
  | cons o os ih => exact (hp.replayOne t o).andThen fun _ => ih o.root

theorem audit (hp : Stable p) : Action.Preserves p audit := by
  intro s hs
  rw [Store.audit]
  split
  · exact hs
  · split
    · exact hp.takeOutOfService s _ hs
    · exact hs
  · exact hs

theorem perform (hp : Stable p) (c : Call) : Action.Preserves p c.perform := by
  cases c with
  | addTree t => exact (hp.addTree t).andThen fun _ => .done _
  | insert t key value reference side =>
      exact (hp.insertToward t key value reference side none).andThen fun _ => .done _
  | delete t key => exact (hp.deleteToward t key none).andThen fun _ => .done _
  | confirm t g => exact (hp.confirm t g).andThen fun _ => .done _
  | replay t os =>
      exact ((Action.Preserves.read _).andThen fun _ => hp.replayFrom t _ os).andThen
        fun _ => .done _
  | audit => exact hp.audit.andThen fun _ => .done _
  | ask q => exact .read _

end Stable

end Store

end MerkleStore
