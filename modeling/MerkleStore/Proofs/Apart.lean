import MerkleStore.Proofs.Quarantine
import MerkleStore.Proofs.Replication

/-!
# What has nothing to do with a tree

To whatever names another tree, or none, it makes no difference whether a tree is in service, and
the history of the tree stays as it is (`Action.Apart`). This is so in every state in which roots
are filed under their own trees (`State.Filed`), and a store is never in any other state, whatever
its file holds and whatever is committed to it. So neither a call nor a replication has anything to
do with a tree that it does not name (`Action.Apart.perform`, `Exchange.Apart.replicate`).
-/

namespace MerkleStore

/-! ## Where roots are filed -/

namespace State

variable {s s' : State} {r : Record} {rs : List Record}

/-- Every root is in the history of the tree it names. -/
def Filed (s : State) : Prop :=
  ∀ (t : TreeId) (h : History), s.trees[t]? = some h → ∀ r ∈ h.roots, r.tree = t

theorem Filed.empty : empty.Filed := by simp [Filed, State.empty]

theorem Filed.setTree {t : TreeId} {h : History} (hf : s.Filed) (hh : ∀ r ∈ h.roots, r.tree = t) :
    (s.setTree t h).Filed := by
  intro t' h' ht'
  rw [getElem?_setTree] at ht'
  split at ht'
  · next heq =>
      cases ht'
      exact heq ▸ hh
  · exact hf t' h' ht'

theorem Filed.apply (hf : s.Filed) (happly : s.apply r = .ok s') : s'.Filed := by
  cases apply_eq_ok.mp happly with
  | node n => exact hf
  | start ht hg => exact hf.setTree (by simp [History.start])
  | @root r h ht hg =>
      refine hf.setTree fun r' hr' => ?_
      rcases List.mem_append.mp hr' with hr' | hr'
      · exact hf _ h ht r' hr'
      · rw [List.mem_singleton.mp hr']
  | @operation t g o h ht hg => exact hf.setTree (hf t h ht)
  | @status t g status h ht hg =>
      refine hf.setTree fun r' hr' => ?_
      obtain ⟨i, hi⟩ := List.mem_iff_getElem?.mp hr'
      obtain ⟨f, hkeeps, heq⟩ := h.getElem?_updateStatus g i status
      rw [heq] at hi
      obtain ⟨r'', hr'', rfl⟩ := Option.map_eq_some_iff.mp hi
      rw [(hkeeps r'').1]
      exact hf t h ht r'' (List.mem_of_getElem? hr'')

theorem Filed.applyAll (hf : s.Filed) (happly : s.applyAll rs = .ok s') : s'.Filed := by
  induction rs generalizing s with
  | nil =>
      cases happly
      exact hf
  | cons r rs ih =>
      obtain ⟨s₁, hone, hrest⟩ := applyAll_cons_eq_ok.mp happly
      exact ih (hf.apply hone) hrest

theorem Filed.alike (hf : s.Filed) (ha : s.Alike s') : s'.Filed := by
  intro t h ht
  obtain ⟨h₀, ht₀, hroots, -⟩ := ha.symm.exists_getElem? ht
  exact hroots ▸ hf t h₀ ht₀

theorem Filed.reindex (hf : s.Filed) (hreindex : s.reindex = .ok s') : s'.Filed := by
  obtain ⟨s₁, hs₁, halike⟩ := (exists_reindex_iff.mp ⟨s', hreindex⟩).exists_reindex (.refl s)
  rw [hreindex, Except.ok.injEq] at hs₁
  exact hf.alike (hs₁ ▸ halike.symm)

theorem Filed.latest (hf : s.Filed) {t : TreeId} {h : History} (ht : s.trees[t]? = some h) :
    h.latest.tree = t :=
  hf t h ht _ (List.getLast_mem h.roots_ne_nil)

end State

/-- Whatever the frames at the front of these bytes hold, roots are filed under their trees. -/
theorem Journal.filed_of_replayFrames {z : Codec} {fuel offset offset' : Nat} {s s' : State}
    {rest : Bytes} (hf : s.Filed) (h : replayFrames z fuel offset s rest = .ok (s', offset')) :
    s'.Filed := by
  induction fuel generalizing s offset rest with
  | zero =>
      cases h
      exact hf
  | succ fuel ih =>
      rw [replayFrames] at h
      split at h
      · cases h
        exact hf
      · split at h
        · cases h
        · split at h
          · cases h
          · next s₁ happly => exact ih (hf.applyAll happly) h
        · split at h <;> cases h
          exact hf
        · split at h <;> cases h
          exact hf

/-- Roots are filed under their trees in every store that is opened. -/
theorem Store.filed_of_ofFile {z : Codec} {bytes : Bytes} {s : Store} (h : ofFile z bytes = .ok s) :
    s.state.Filed := by
  obtain ⟨⟨state, journal⟩, hrecover, hs⟩ := bind_eq_ok.mp h
  obtain ⟨-, -, hrecover⟩ := bind_eq_ok.mp hrecover
  obtain ⟨⟨s₀, offset⟩, hframes, hrecover⟩ := bind_eq_ok.mp hrecover
  obtain ⟨s₁, hreindex, hend⟩ := bind_eq_ok.mp hrecover
  cases hend
  cases hs
  exact (Journal.filed_of_replayFrames .empty hframes).reindex hreindex

/-- Roots stay filed under their trees, whatever is committed. -/
theorem Store.filed_commit (tx : Transaction) :
    Action.Preserves (fun s => s.state.Filed) (Store.commit tx) := by
  intro s hs
  rcases commit_cases tx s with ⟨e, heq⟩ | ⟨-, heq⟩ | ⟨journal, state, -, -, happly, heq⟩ <;>
    rw [heq]
  · exact hs
  · exact hs
  · exact (hs.applyAll happly).alike (State.alike_foldl_updateIndex state tx.updates).symm

/-! ## What is written for other trees -/

/-- The tree that a record is about. -/
def Record.tree? : Record → Option TreeId
  | .node _ => none
  | .root r => some r.tree
  | .operation t _ _ | .status t _ _ => some t

namespace State

variable {s s' : State} {t : TreeId} {rs : List Record}

/-- A record changes the history of its own tree only. -/
theorem getElem?_of_apply {r : Record} (happly : s.apply r = .ok s') (hr : r.tree? ≠ some t) :
    s'.trees[t]? = s.trees[t]? := by
  have hne {u : TreeId} (hu : r.tree? = some u) : u ≠ t := fun heq => hr (heq ▸ hu)
  cases apply_eq_ok.mp happly with
  | node n => rfl
  | start => rw [getElem?_setTree, if_neg (hne rfl)]
  | root => rw [getElem?_setTree, if_neg (hne rfl)]
  | operation => rw [getElem?_setTree, if_neg (hne rfl)]
  | status => rw [getElem?_setTree, if_neg (hne rfl)]

theorem getElem?_of_applyAll (happly : s.applyAll rs = .ok s')
    (hrs : ∀ r ∈ rs, r.tree? ≠ some t) : s'.trees[t]? = s.trees[t]? := by
  induction rs generalizing s with
  | nil =>
      cases happly
      rfl
  | cons r rs ih =>
      obtain ⟨s₁, hr, hrest⟩ := applyAll_cons_eq_ok.mp happly
      rw [ih hrest fun r' hr' => hrs r' (.tail _ hr'), getElem?_of_apply hr (hrs r (.head _))]

theorem getElem?_foldl_updateIndex {us : List (TreeId × IndexChange)} (hus : ∀ u ∈ us, u.1 ≠ t)
    (s : State) :
    (us.foldl (fun s u => s.updateIndex u.1 u.2) s).trees[t]? = s.trees[t]? := by
  induction us generalizing s with
  | nil => rfl
  | cons u us ih =>
      rw [List.foldl_cons, ih fun u' hu' => hus u' (.tail _ hu'), updateIndex]
      split
      · rw [getElem?_setTree, if_neg (hus u (.head _))]
      · rfl

end State

namespace Transaction

/-- A transaction has nothing about a tree. -/
structure Spares (tx : Transaction) (t : TreeId) : Prop where
  records : ∀ r ∈ tx.records, r.tree? ≠ some t
  updates : ∀ u ∈ tx.updates, u.1 ≠ t

variable {tx tx' : Transaction} {s : State} {t u : TreeId}

theorem Spares.empty : empty.Spares t where
  records := by simp [Transaction.empty]
  updates := by simp [Transaction.empty]

theorem Spares.add (htx : tx.Spares t) {r : Record} (hr : r.tree? ≠ some t) :
    (tx.add r).Spares t where
  records := by
    intro r' hr'
    rcases List.mem_append.mp hr' with hr' | hr'
    · exact htx.records r' hr'
    · exact List.mem_singleton.mp hr' ▸ hr
  updates := htx.updates

theorem Spares.addUpdate (htx : tx.Spares t) (hne : u ≠ t) (c : IndexChange) :
    (tx.addUpdate u c).Spares t where
  records := htx.records
  updates := by
    intro c' hc'
    rcases List.mem_append.mp hc' with hc' | hc'
    · exact htx.updates c' hc'
    · exact List.mem_singleton.mp hc' ▸ hne

theorem Spares.addNode (htx : tx.Spares t) (nodes : NodeMap) (n : Node) :
    (tx.addNode nodes n).Spares t := by
  rw [Transaction.addNode]
  split
  · exact htx
  · have hnode : (Record.node n).tree? ≠ some t := by simp [Record.tree?]
    exact ⟨(htx.add hnode).records, htx.updates⟩

theorem Spares.renewPath (htx : tx.Spares t) {c c' : IndexChange} {path : List Hash}
    {old new root : Hash} (hr : s.renewPath tx c path old new = .ok (tx', c', root)) :
    tx'.Spares t := by
  induction path generalizing tx c old new with
  | nil =>
      cases hr
      exact htx
  | cons ancestor path ih =>
      obtain ⟨n, -, hrest⟩ := bind_eq_ok.mp hr
      cases hm : n.internal?.bind (·.exchange? old new) with
      | none =>
          rw [hm] at hrest
          cases hrest
      | some m =>
          rw [hm] at hrest
          exact ih (htx.addNode s.nodes _) hrest

theorem Spares.finish (htx : tx.Spares t) (hne : u ≠ t) {h : History} (hh : h.latest.tree = u)
    (c : IndexChange) (root : Option Hash) (o : Operation) :
    (State.finish u h tx c root o).transaction.Spares t := by
  have hroot : (Record.root (h.latest.next root)).tree? ≠ some t := by
    simpa [Record.tree?, Root.next, hh] using hne
  have ho : (Record.operation u (h.latest.next root).generation o).tree? ≠ some t := by
    simpa [Record.tree?] using hne
  exact ((htx.add hroot).add ho).addUpdate hne c

end Transaction

namespace State

variable {s : State} {t u : TreeId} {key value : Bytes} {d : Draft}

/-- What has been worked out for one tree has nothing about another one. -/
theorem Filed.spares_draftInsertion (hf : s.Filed) (hne : u ≠ t) {reference : Option Hash}
    {side : Option Side} (hd : s.draftInsertion u key value reference side = .ok d) :
    d.transaction.Spares t := by
  obtain ⟨h, ht, hd⟩ := bind_eq_ok.mp hd
  have hh := hf.latest (tree_eq_ok.mp ht)
  have hleaf := Transaction.Spares.empty (t := t) |>.addNode s.nodes (.terminal (.ofPair key value))
  split at hd
  · cases hd
  · obtain ⟨place, -, hd⟩ := bind_eq_ok.mp hd
    cases place with
    | top =>
        cases hd
        exact hleaf.finish hne hh _ _ _
    | beside r side path =>
        obtain ⟨⟨tx, c, root⟩, hrenew, hd⟩ := bind_eq_ok.mp hd
        cases hd
        exact ((hleaf.addNode s.nodes _).renewPath hrenew).finish hne hh _ _ _

theorem Filed.spares_draftDeletion (hf : s.Filed) (hne : u ≠ t)
    (hd : s.draftDeletion u key = .ok d) : d.transaction.Spares t := by
  obtain ⟨h, ht, hd⟩ := bind_eq_ok.mp hd
  have hh := hf.latest (tree_eq_ok.mp ht)
  split at hd
  · cases hd
  · split at hd
    · cases hd
    · cases hd
      exact Transaction.Spares.empty.finish hne hh _ _ _
    · obtain ⟨n, -, hd⟩ := bind_eq_ok.mp hd
      split at hd
      · cases hd
      · obtain ⟨⟨tx, c, root⟩, hrenew, hd⟩ := bind_eq_ok.mp hd
        cases hd
        exact (Transaction.Spares.empty.renewPath hrenew).finish hne hh _ _ _

end State

/-- The tree that a call names. -/
def Call.named? : Call → Option TreeId
  | .ask q => q.tree?
  | c => c.tree?

/-! ## What makes no difference -/

namespace Store

variable {s : Store} {t u : TreeId}

theorem takeOutOfService_comm (s : Store) (t u : TreeId) :
    (s.takeOutOfService t).takeOutOfService u = (s.takeOutOfService u).takeOutOfService t := by
  have hset : (s.quarantined.insert t).insert u = (s.quarantined.insert u).insert t := by
    refine Std.ExtTreeSet.ext_mem fun k => ?_
    simp only [Std.ExtTreeSet.mem_insert]
    tauto
  simp only [takeOutOfService, hset]

theorem requireInService_takeOutOfService (hne : u ≠ t) (s : Store) :
    (s.takeOutOfService t).requireInService u = s.requireInService u := by
  have hout : (s.takeOutOfService t).isOutOfService u = s.isOutOfService u := by
    rw [Bool.eq_iff_iff, isOutOfService_takeOutOfService, or_iff_left hne]
  rw [requireInService, requireInService, hout]

theorem servedTree_takeOutOfService (hne : u ≠ t) (s : Store) :
    (s.takeOutOfService t).servedTree u = s.servedTree u := by
  rw [servedTree, servedTree, requireInService_takeOutOfService hne]
  rfl

theorem requireRoot_takeOutOfService (hne : u ≠ t) (s : Store) :
    (s.takeOutOfService t).requireRoot u = s.requireRoot u := by
  funext h
  simp only [requireRoot, lastRootWith, servedTree_takeOutOfService hne]

/-- Questions that do not name a tree are answered the same if it is out of service. -/
theorem answer_takeOutOfService {q : Question} (hq : q.tree? ≠ some t) (s : Store) :
    q.answer (s.takeOutOfService t) = q.answer s := by
  have hne {u : TreeId} (hu : q.tree? = some u) : u ≠ t := fun heq => hq (heq ▸ hu)
  cases q with
  | hasTree | treeIds | numNodes | node | preorder => rfl
  | isOutOfService u =>
      have hout : (s.takeOutOfService t).isOutOfService u = s.isOutOfService u := by
        rw [Bool.eq_iff_iff, isOutOfService_takeOutOfService, or_iff_left (hne rfl)]
      simp only [Question.answer, hout]
  | latestRoot u =>
      simp only [Question.answer, latestRoot, servedTree_takeOutOfService (hne rfl)]
  | latestGeneration u =>
      simp only [Question.answer, latestGeneration, latestRoot,
        servedTree_takeOutOfService (hne rfl)]
  | root u g => simp only [Question.answer, root, servedTree_takeOutOfService (hne rfl)]
  | rootsBetween u first last =>
      simp only [Question.answer, rootsBetween, servedTree_takeOutOfService (hne rfl)]
  | lastRootWith u top =>
      simp only [Question.answer, lastRootWith, servedTree_takeOutOfService (hne rfl)]
  | terminal u key =>
      simp only [Question.answer, terminal, servedTree_takeOutOfService (hne rfl)]
      rfl
  | ancestors u h =>
      simp only [Question.answer, ancestors, servedTree_takeOutOfService (hne rfl)]
      rfl
  | keysValues u top =>
      simp only [Question.answer, keysValues, requireRoot_takeOutOfService (hne rfl), latestRoot,
        servedTree_takeOutOfService (hne rfl)]
      rfl
  | operations u first last =>
      simp only [Question.answer, operations, servedTree_takeOutOfService (hne rfl)]
  | diff u first last =>
      simp only [Question.answer, diff_eq, requireInService_takeOutOfService (hne rfl),
        requireRoot_takeOutOfService (hne rfl)]
      rfl

end Store

namespace Action

variable {α β : Type} {t u : TreeId}

/-- An action has nothing to do with a tree: it goes the same way whether the tree is in service
or not, and leaves its history as it is. -/
structure Apart (t : TreeId) (x : Action α) : Prop where
  blind : ∀ s : Store, s.state.Filed →
    x (s.takeOutOfService t) = ((x s).1, (x s).2.takeOutOfService t)
  history : ∀ s : Store, s.state.Filed → (x s).2.state.trees[t]? = s.state.trees[t]?
  filed : Preserves (fun s => s.state.Filed) x

theorem Apart.done (a : α) : Apart t (done a) where
  blind := fun _ _ => rfl
  history := fun _ _ => rfl
  filed := .done a

theorem Apart.fail (e : Error) : Apart t (fail e : Action α) where
  blind := fun _ _ => rfl
  history := fun _ _ => rfl
  filed := .fail e

theorem Apart.read {f : Store → Except Error α} (hf : ∀ s : Store, f (s.takeOutOfService t) = f s) :
    Apart t (read f) where
  blind := fun s _ => congrArg (·, s.takeOutOfService t) (hf s)
  history := fun _ _ => rfl
  filed := .read f

theorem Apart.andThen {x : Action α} {next : α → Action β} (hx : Apart t x)
    (hnext : ∀ a, Apart t (next a)) : Apart t (x.andThen next) where
  blind := by
    intro s hs
    have hfiled : (x s).2.state.Filed := hx.filed s hs
    simp only [Action.andThen, hx.blind s hs]
    generalize x s = y at hfiled ⊢
    obtain ⟨e | a, s'⟩ := y
    · rfl
    · exact (hnext a).blind s' hfiled
  history := by
    intro s hs
    have hfiled : (x s).2.state.Filed := hx.filed s hs
    rw [← hx.history s hs, Action.andThen]
    generalize x s = y at hfiled ⊢
    obtain ⟨e | a, s'⟩ := y
    · rfl
    · exact (hnext a).history s' hfiled
  filed := hx.filed.andThen fun a => (hnext a).filed

/-- What is read is what some store gives. -/
theorem Apart.read_andThen {f : Store → Except Error α} {next : α → Action β}
    (hf : ∀ s : Store, f (s.takeOutOfService t) = f s)
    (hnext : ∀ s a, s.state.Filed → f s = .ok a → Apart t (next a)) :
    Apart t ((Action.read f).andThen next) where
  blind := by
    intro s hs
    simp only [Action.andThen, Action.read, hf s]
    cases heq : f s with
    | error e => rfl
    | ok a => exact (hnext s a hs heq).blind s hs
  history := by
    intro s hs
    simp only [Action.andThen, Action.read]
    cases heq : f s with
    | error e => rfl
    | ok a => exact (hnext s a hs heq).history s hs
  filed := by
    intro s hs
    simp only [Action.andThen, Action.read]
    cases heq : f s with
    | error e => exact hs
    | ok a => exact (hnext s a hs heq).filed s hs

/-- A commit looks at the state and the journal only, and changes the trees it is about. -/
theorem Apart.commit {tx : Transaction} (htx : tx.Spares t) : Apart t (Store.commit tx) where
  blind := by
    intro s _
    have hstate : (s.takeOutOfService t).state = s.state := rfl
    have hrecord : (s.takeOutOfService t).record tx.records = s.record tx.records := rfl
    simp only [Store.commit, hstate, hrecord]
    split
    · rfl
    · cases s.state.checkBatch tx.records with
      | error e => rfl
      | ok _ =>
          cases s.record tx.records with
          | error e => rfl
          | ok journal => cases s.state.applyAll tx.records <;> rfl
  history := by
    intro s _
    rcases Store.commit_cases tx s with
      ⟨e, heq⟩ | ⟨-, heq⟩ | ⟨journal, state, -, -, happly, heq⟩ <;> rw [heq]
    exact (State.getElem?_foldl_updateIndex htx.updates state).trans
      (State.getElem?_of_applyAll happly htx.records)
  filed := Store.filed_commit tx

theorem Apart.commitDraft {d : Draft} (hd : d.transaction.Spares t) (u : TreeId)
    (expected : Option (Option Hash)) : Apart t (Store.commitDraft u d expected) := by
  cases expected with
  | none => exact .commit hd
  | some root =>
      simp only [Store.commitDraft]
      split
      · exact .commit hd
      · exact .fail _

theorem Apart.addTree (hne : u ≠ t) : Apart t (Store.addTree u) := by
  have hcommit : Apart t (Store.commit (Transaction.empty.add (.root (.empty u)))) :=
    .commit (Transaction.Spares.empty.add (by simpa [Record.tree?, Root.empty] using hne))
  have hcases (s : Store) : Store.addTree u s = if s.hasTree u then (.error (.treeExists u), s)
    else Store.commit (Transaction.empty.add (.root (.empty u))) s := rfl
  constructor
  · intro s hs
    have hhas : (s.takeOutOfService t).hasTree u = s.hasTree u := rfl
    rw [hcases, hcases, hhas]
    split
    · rfl
    · exact hcommit.blind s hs
  · intro s hs
    rw [hcases]
    split
    · rfl
    · exact hcommit.history s hs
  · intro s hs
    rw [hcases]
    split
    · exact hs
    · exact hcommit.filed s hs

theorem Apart.requireInService (hne : u ≠ t) : Apart t (Action.read (·.requireInService u)) :=
  .read (Store.requireInService_takeOutOfService hne)

theorem Apart.insertToward (hne : u ≠ t) (key value : Bytes) (reference : Option Hash)
    (side : Option Side) (expected : Option (Option Hash)) :
    Apart t (Store.insertToward u key value reference side expected) := by
  refine (Apart.requireInService hne).andThen fun _ =>
    Apart.read_andThen (fun _ => rfl) fun s d hs hd => ?_
  exact (Apart.commitDraft (hs.spares_draftInsertion hne hd) u expected).andThen fun _ => .done _

theorem Apart.deleteToward (hne : u ≠ t) (key : Bytes) (expected : Option (Option Hash)) :
    Apart t (Store.deleteToward u key expected) := by
  refine (Apart.requireInService hne).andThen fun _ =>
    Apart.read_andThen (fun _ => rfl) fun s d hs hd => ?_
  exact Apart.commitDraft (hs.spares_draftDeletion hne hd) u expected

theorem Apart.confirm (hne : u ≠ t) (g : Nat) : Apart t (Store.confirm u g) := by
  refine Apart.andThen (.read fun s => ?_) fun r => ?_
  · simp only [Store.root, Store.servedTree_takeOutOfService hne]
  · split
    · exact .done ()
    · exact .commit (Transaction.Spares.empty.add (by simpa [Record.tree?] using hne))

theorem Apart.replayOne (hne : u ≠ t) (o : Operation) : Apart t (Store.replayOne u o) := by
  cases o with
  | insertion d =>
      exact (Apart.insertToward hne d.key d.value d.reference d.side _).andThen fun _ => .done ()
  | deletion d => exact .deleteToward hne d.key _

theorem Apart.replayFrom (hne : u ≠ t) (root : Option Hash) (os : List Operation) :
    Apart t (Store.replayFrom u root os) := by
  induction os generalizing root with
  | nil => exact .done root
  | cons o os ih => exact (Apart.replayOne hne o).andThen fun _ => ih o.root

theorem Apart.latestRoot (hne : u ≠ t) : Apart t (Action.read (·.latestRoot u)) :=
  .read fun s => by simp only [Store.latestRoot, Store.servedTree_takeOutOfService hne]

theorem Apart.replay (hne : u ≠ t) (os : List Operation) : Apart t (Store.replay u os) :=
  (Apart.latestRoot hne).andThen fun r => .replayFrom hne r.node os

/-- An audit looks at the state only, and at trees out of service like at all others. -/
theorem Apart.audit : Apart t Store.audit where
  blind := by
    intro s _
    have hstate : (s.takeOutOfService t).state = s.state := rfl
    simp only [Store.audit, hstate]
    cases s.state.audit with
    | ok => rfl
    | error e =>
        cases e with
        | integrity v =>
            dsimp only
            cases v.tree? with
            | none => rfl
            | some u => exact congrArg (_, ·) (s.takeOutOfService_comm t u)
        | _ => rfl
  history := by
    intro s _
    rcases Store.snd_audit_cases s with hsame | ⟨u, htaken⟩
    · rw [hsame s rfl]
    · rw [htaken s rfl]
      rfl
  filed := by
    intro s hs
    rcases Store.snd_audit_cases s with hsame | ⟨u, htaken⟩
    · rw [hsame s rfl]
      exact hs
    · rw [htaken s rfl]
      exact hs

theorem Apart.perform {c : Call} (hc : c.named? ≠ some t) : Apart t c.perform := by
  have hne {u : TreeId} (hu : c.named? = some u) : u ≠ t := fun heq => hc (heq ▸ hu)
  cases c with
  | addTree u => exact (Apart.addTree (hne rfl)).andThen fun _ => .done _
  | insert u key value reference side =>
      exact (Apart.insertToward (hne rfl) key value reference side none).andThen fun _ => .done _
  | delete u key => exact (Apart.deleteToward (hne rfl) key none).andThen fun _ => .done _
  | confirm u g => exact (Apart.confirm (hne rfl) g).andThen fun _ => .done _
  | replay u os => exact (Apart.replay (hne rfl) os).andThen fun _ => .done _
  | audit => exact Apart.audit.andThen fun _ => .done _
  | ask q => exact .read (Store.answer_takeOutOfService hc)

end Action

/-! ## Replications -/

/-- The session with a tree of the local store out of service. -/
def Session.takeOutOfService (c : Session) (t : TreeId) : Session :=
  { c with store := c.store.takeOutOfService t }

namespace Exchange

variable {α β : Type} {t u : TreeId}

/-- An exchange has nothing to do with a tree of the local store. -/
structure Apart (t : TreeId) (x : Exchange α) : Prop where
  blind : ∀ (peer : Peer) (c : Session), c.store.state.Filed →
    x peer (c.takeOutOfService t) = ((x peer c).1, (x peer c).2.takeOutOfService t)
  history : ∀ (peer : Peer) (c : Session), c.store.state.Filed →
    (x peer c).2.store.state.trees[t]? = c.store.state.trees[t]?
  filed : ∀ (peer : Peer) (c : Session), c.store.state.Filed → (x peer c).2.store.state.Filed

theorem Apart.done (a : α) : Apart t (done a) where
  blind := fun _ _ _ => rfl
  history := fun _ _ _ => rfl
  filed := fun _ _ hc => hc

theorem Apart.fail (e : Error) : Apart t (fail e : Exchange α) where
  blind := fun _ _ _ => rfl
  history := fun _ _ _ => rfl
  filed := fun _ _ hc => hc

theorem Apart.ofExcept (x : Except Error α) : Apart t (ofExcept x) := by
  cases x with
  | error e => exact .fail e
  | ok a => exact .done a

theorem Apart.andThen {x : Exchange α} {next : α → Exchange β} (hx : Apart t x)
    (hnext : ∀ a, Apart t (next a)) : Apart t (x.andThen next) where
  blind := by
    intro peer c hc
    have hfiled := hx.filed peer c hc
    simp only [Exchange.andThen, hx.blind peer c hc]
    generalize x peer c = y at hfiled ⊢
    obtain ⟨e | a, c'⟩ := y
    · rfl
    · exact (hnext a).blind peer c' hfiled
  history := by
    intro peer c hc
    have hfiled := hx.filed peer c hc
    rw [← hx.history peer c hc, Exchange.andThen]
    generalize x peer c = y at hfiled ⊢
    obtain ⟨e | a, c'⟩ := y
    · rfl
    · exact (hnext a).history peer c' hfiled
  filed := by
    intro peer c hc
    have hfiled := hx.filed peer c hc
    rw [Exchange.andThen]
    generalize x peer c = y at hfiled ⊢
    obtain ⟨e | a, c'⟩ := y
    · exact hfiled
    · exact (hnext a).filed peer c' hfiled

theorem Apart.locally {x : Action α} (hx : x.Apart t) : Apart t (locally x) where
  blind := by
    intro peer c hc
    simp only [Exchange.locally, Session.takeOutOfService, hx.blind c.store hc]
  history := fun _ c hc => hx.history c.store hc
  filed := fun _ c hc => hx.filed c.store hc

theorem Apart.look (f : Store → α) (hf : ∀ s : Store, f (s.takeOutOfService t) = f s) :
    Apart t (look f) where
  blind := fun _ c _ => congrArg (fun a => (Except.ok a, c.takeOutOfService t)) (hf c.store)
  history := fun _ _ _ => rfl
  filed := fun _ _ hc => hc

theorem Apart.ask (r : Request) : Apart t (Replica.ask r) where
  blind := fun _ _ _ => rfl
  history := fun _ _ _ => rfl
  filed := fun _ _ hc => hc

theorem Apart.fetchRoot (u : TreeId) (root : Hash) : Apart t (Replica.fetchRoot u root) :=
  (Apart.ask _).andThen fun _ => .ofExcept _

theorem Apart.fetchOperations (u : TreeId) (first last : Nat) :
    Apart t (Replica.fetchOperations u first last) :=
  (Apart.ask _).andThen fun _ => .ofExcept _

theorem Apart.compareBehind (u : TreeId) (rs : List Root) (first last : Nat) :
    Apart t (Replica.compareBehind u rs first last) := by
  have hcompare (known : List Operation) :
      Apart t (.ofExcept (Replica.compareHistory u rs known)) := .ofExcept _
  refine (Apart.fetchOperations u first last).andThen fun known => ?_
  split
  · exact (Apart.fail _).andThen fun _ => hcompare known
  · exact hcompare known

theorem Apart.catchUp (hne : u ≠ t) (latest : Nat) : Apart t (Replica.catchUp u latest) := by
  refine Apart.andThen (.locally (.read fun s => ?_)) fun roots => ?_
  · simp only [Store.rootsBetween, Store.servedTree_takeOutOfService hne]
  · exact .compareBehind u (roots.drop (_ - 1)) (_ - 1) latest

theorem Apart.askConfirmed (hne : u ≠ t) (first : Nat) :
    Apart t (Replica.askConfirmed u first) := by
  rw [Replica.askConfirmed]
  split
  · exact .catchUp hne first
  · exact .done []

theorem Apart.confirmAll (hne : u ≠ t) (gs : List Nat) : (Replica.confirmAll u gs).Apart t := by
  induction gs with
  | nil => exact .done ()
  | cons g gs ih => exact (Action.Apart.confirm hne g).andThen fun _ => ih

theorem Apart.openCopy (hne : u ≠ t) : Apart t (Replica.openCopy u) := by
  have hlatest : Apart t (do
      return (← Exchange.locally (Action.read (·.latestRoot u))).generation) :=
    (Apart.locally (.latestRoot hne)).andThen fun _ => .done _
  unfold Replica.openCopy
  refine (Apart.look (·.hasTree u) fun _ => rfl).andThen fun b => ?_
  cases b with
  | true => exact hlatest
  | false => exact (Apart.locally (.addTree hne)).andThen fun _ => hlatest

theorem Apart.learn (hne : u ≠ t) (last first : Nat) : Apart t (Replica.learn u last first) := by
  have hrest : Apart t (do
      let known ← Replica.askConfirmed u first
      let operations ← Replica.fetchOperations u first last
      return (⟨first, last, known, operations⟩ : Replica.Survey)) :=
    (Apart.askConfirmed hne first).andThen fun _ =>
      (Apart.fetchOperations u first last).andThen fun _ => .done _
  rw [Replica.learn]
  split
  · exact (Apart.fail _).andThen fun _ => hrest
  · exact hrest

theorem Apart.survey (hne : u ≠ t) (root : Hash) : Apart t (Replica.survey u root) := by
  refine (Apart.fetchRoot u root).andThen fun remote => ?_
  cases remote with
  | none => exact .fail _
  | some r => exact (Apart.openCopy hne).andThen fun first => .learn hne r.generation first

theorem Apart.conclude (hne : u ≠ t) (root : Hash) (v : Replica.Survey) :
    Apart t (Replica.conclude u root v) := by
  have hconfirm : Apart t (do
      Exchange.locally (Replica.confirmAll u v.confirmed)
      return v.report u root) :=
    (Apart.locally (Apart.confirmAll hne _)).andThen fun _ => .done _
  refine Apart.andThen (.locally (.replay hne v.operations)) fun reached => ?_
  split
  · exact (Apart.fail _).andThen fun _ => hconfirm
  · exact hconfirm

/-- What becomes of a copy does not depend on whether another tree is in service. -/
theorem Apart.replicate (hne : u ≠ t) (root : Hash) : Apart t (Replica.replicate u root) := by
  rw [Replica.replicate_eq]
  exact (Apart.survey hne root).andThen fun v => .conclude hne root v

end Exchange


end MerkleStore
