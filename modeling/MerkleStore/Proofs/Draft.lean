import MerkleStore.Proofs.Ancestry
import MerkleStore.Store.Write

/-!
# Drafts

What a write works out from a history that shows a version (`History.Shows`). It
asks the version for an edit and puts the nodes of the edit, its index change, the
new root and the operation into a transaction (`State.draftOf`). `draftInsertion_eq`
and `draftDeletion_eq` say so for all arguments, refusals included, so that nothing
else about the index or about earlier generations has a part in it.
-/

namespace MerkleStore

open MerkleStore.Tree

/-- The last generation of a history is a version, and its index describes it. -/
structure History.Shows (nodes : NodeMap) (h : History) (v : Version) : Prop where
  root : h.latest.node = v.hash
  stored : v.MadeOf nodes.stored
  distinct : v.Distinct
  index : h.index.Describes v

/-! ## Transactions -/

namespace Transaction

variable {nodes : NodeMap} {tx : Transaction}

/-- Adds nodes that neither the transaction nor the stored nodes have. -/
def addNodes (tx : Transaction) (nodes : NodeMap) (ns : List Node) : Transaction :=
  ns.foldl (fun tx n => tx.addNode nodes n) tx

/-- No collected node has the hash of a stored one. -/
def Apart (tx : Transaction) (nodes : NodeMap) : Prop :=
  ∀ h : Hash, h ∈ nodes → tx.staged[h]? = none

theorem Apart.empty (nodes : NodeMap) : Transaction.empty.Apart nodes := by
  intro h _
  simp [Transaction.empty]

theorem Apart.addNode (ha : tx.Apart nodes) (n : Node) : (tx.addNode nodes n).Apart nodes := by
  intro h hh
  simp only [Transaction.addNode]
  split
  · exact ha h hh
  · next hnot =>
      have hne : n.hash ≠ h := by
        rintro rfl
        simp [Std.ExtTreeMap.contains_iff_mem, hh] at hnot
      simp [Std.ExtTreeMap.getElem?_insert, hne, ha h hh]

theorem Apart.addNodes (ha : tx.Apart nodes) (ns : List Node) :
    (tx.addNodes nodes ns).Apart nodes := by
  induction ns generalizing tx with
  | nil => exact ha
  | cons n ns ih => exact ih (ha.addNode n)

theorem Apart.node {s : State} {h : Hash} {n : Node} (ha : tx.Apart s.nodes)
    (hn : s.nodes[h]? = some n) : tx.node s h = .ok n := by
  have hmem : h ∈ s.nodes := by rw [Std.ExtTreeMap.mem_iff_isSome_getElem?, hn]; rfl
  simp [Transaction.node, ha h hmem, State.node, hn]

end Transaction

namespace State

variable {s : State} {t : TreeId} {h : History} {v : Version}

/-! ## Renewing a path -/

/-- Next to a stored tree that has its keys once stands another one. -/
theorem hash_ne_sibling {f : Fork} {c : Tree} (hm : (f.fill c).MadeOf s.nodes.stored)
    (hd : (f.fill c).Distinct) : f.sibling.hash ≠ c.hash := by
  intro hhash
  have hc : c ∈ (f.fill c).subtrees := mem_subtrees_fill.mpr (.inr (.inl c.self_mem_subtrees))
  have hs : f.sibling ∈ (f.fill c).subtrees :=
    mem_subtrees_fill.mpr (.inr (.inr f.sibling.self_mem_subtrees))
  have heq := NodeMap.eq_of_hash_stored (hm.of_mem hs) (hm.of_mem hc) hhash
  obtain ⟨sibling, side⟩ := f
  simp only at heq
  subst heq
  cases side <;> exact hd.not_mem_right sibling.self_mem_subtrees sibling.self_mem_subtrees

/-- A stored branch with a child exchanged is the branch over the new child. -/
theorem exchange?_fill {f : Fork} {c : Tree} (new : Tree)
    (hm : (f.fill c).MadeOf s.nodes.stored) (hd : (f.fill c).Distinct) :
    (f.fill c).node.internal?.bind (·.exchange? c.hash new.hash) = (f.fill new).node.internal? := by
  have hne := hash_ne_sibling hm hd
  obtain ⟨sibling, side⟩ := f
  cases side <;>
    simp_all [Fork.fill, Tree.node, Node.internal?, Internal.exchange?, Internal.ofPair]

theorem sibling?_fill {f : Fork} {c : Tree} (hm : (f.fill c).MadeOf s.nodes.stored)
    (hd : (f.fill c).Distinct) :
    (f.fill c).node.internal?.bind (·.sibling? c.hash) = some f.sibling.hash := by
  have hne := hash_ne_sibling hm hd
  obtain ⟨sibling, side⟩ := f
  cases side <;> simp_all [Fork.fill, Tree.node, Node.internal?, Internal.sibling?, Internal.ofPair]

theorem exists_internal_fill (f : Fork) (c : Tree) :
    ∃ n : Internal, (f.fill c).node = .internal n ∧ n.hash = (f.fill c).hash ∧
      Edit.links (f.fill c) = [(n.left, n.hash), (n.right, n.hash)] := by
  obtain ⟨sibling, side⟩ := f
  cases side <;> exact ⟨_, rfl, rfl, rfl⟩

/-- The branches over `new` on the way up from `old`, the lowest first. -/
def renewed (s : State) : List Hash → Hash → Hash → List Node
  | [], _, _ => []
  | ancestor :: path, old, new =>
      match (s.nodes[ancestor]?.bind Node.internal?).bind (·.exchange? old new) with
      | none => []
      | some n => .internal n :: renewed s path ancestor n.hash

theorem fill_of_plug {f : Fork} {path : List Fork} {c : Tree}
    (hm : (plug c (f :: path)).MadeOf s.nodes.stored) (hd : (plug c (f :: path)).Distinct) :
    (f.fill c).MadeOf s.nodes.stored ∧ (f.fill c).Distinct := by
  have hmem : f.fill c ∈ (plug c (f :: path)).subtrees := mem_subtrees_plug_self (f.fill c) path
  exact ⟨hm.of_mem hmem, hd.of_mem hmem⟩

theorem renewed_above {path : List Fork} {c : Tree} (new : Tree)
    (hm : (plug c path).MadeOf s.nodes.stored) (hd : (plug c path).Distinct) :
    s.renewed ((above c path).map Tree.hash) c.hash new.hash = (above new path).map Tree.node := by
  induction path generalizing c new with
  | nil => rfl
  | cons f path ih =>
      obtain ⟨hfm, hfd⟩ := fill_of_plug hm hd
      obtain ⟨n, hnode, hhash, -⟩ := exists_internal_fill f new
      have hexchange := (exchange?_fill new hfm hfd).trans (congrArg Node.internal? hnode)
      simp only [above, List.map_cons, renewed, NodeMap.getElem?_top hfm, Option.bind_some,
        hexchange, hnode]
      rw [← ih (c := f.fill c) (f.fill new) hm hd, ← hhash]
      rfl

/-- Renewing a path makes the branches over the new tree and nothing else. -/
theorem renewPath_above {path : List Fork} {c : Tree} {tx : Transaction} {u : IndexChange}
    (new : Tree)
    (hm : (plug c path).MadeOf s.nodes.stored) (hd : (plug c path).Distinct)
    (ha : tx.Apart s.nodes) :
    s.renewPath tx u ((above c path).map Tree.hash) c.hash new.hash =
      .ok (tx.addNodes s.nodes ((above new path).map Tree.node),
        { u with parents := u.parents ++ (above new path).flatMap Edit.links },
        (plug new path).hash) := by
  induction path generalizing c new tx u with
  | nil => simp [renewPath, above, plug, Transaction.addNodes]
  | cons f path ih =>
      obtain ⟨hfm, hfd⟩ := fill_of_plug hm hd
      obtain ⟨n, hnode, hhash, hlinks⟩ := exists_internal_fill f new
      have hexchange := (exchange?_fill new hfm hfd).trans (congrArg Node.internal? hnode)
      -- the branch that is read is the one above `c`; the one made stands above `new`
      have hrest := ih (c := f.fill c) (u := u.addBranch n) (f.fill new) hm hd
        (ha.addNode (.internal n))
      rw [← hhash] at hrest
      simp only [above, List.map_cons, renewPath, ha.node (NodeMap.getElem?_top hfm), bind,
        Except.bind, hexchange]
      simp only [Node.internal?, hrest]
      simp [Transaction.addNodes, IndexChange.addBranch, hnode, hlinks, plug]

/-! ## Drafts of edits -/

/-- The draft of an edit. -/
def draftOf (s : State) (t : TreeId) (h : History) (e : Edit) : Draft :=
  finish t h (Transaction.empty.addNodes s.nodes e.made) e.change e.target.hash e.operation

theorem tree_eq_ok : s.tree t = .ok h ↔ s.trees[t]? = some h := by
  rw [tree]
  cases s.trees[t]? <;> simp

/-- The ancestors of a node are those of the subtree that a search finds. -/
theorem ancestry_eq_find? {top : Tree} (hs : h.Shows s.nodes (some top)) (target : Hash) :
    s.ancestry h target =
      (top.find? target).map fun (c, path) => (above c path).map Tree.hash := by
  have hiff {ancestors : List Hash} : s.ancestry h target = some ancestors ↔
      ∃ c path, plug c path = top ∧ c.hash = target ∧ (above c path).map Tree.hash = ancestors :=
    ancestry_eq_some_iff hs.stored (hs.index.parents top rfl) hs.root
  cases hf : top.find? target with
  | some found =>
      obtain ⟨c, path⟩ := found
      obtain ⟨hplug, hhash⟩ := plug_of_find? hf
      exact hiff.mpr ⟨c, path, hplug, hhash, rfl⟩
  | none =>
      cases ha : s.ancestry h target with
      | none => rfl
      | some ancestors =>
          obtain ⟨c, path, rfl, hhash, -⟩ := hiff.mp ha
          exact absurd hhash (hash_ne_of_find?_eq_none hf (mem_subtrees_plug_self c path))

theorem contains_keys (hs : h.Shows s.nodes v) (key : Bytes) :
    h.index.keys.contains key = decide (key ∈ v.keys) := by
  rw [Bool.eq_iff_iff, Std.ExtTreeMap.contains_iff_mem, hs.index.mem_keys, decide_eq_true_iff]

/-- Joining a leaf to a tree makes the branch with that leaf beside the tree. -/
theorem hash_join (c : Tree) (key value : Bytes) (side : Side) :
    (Internal.join c.hash (.terminal key value) side).hash =
      (Fork.fill ⟨leaf key value, side⟩ c).hash := by
  cases side <;> rfl

theorem draftOf_first (s : State) (t : TreeId) (h : History) (key value : Bytes) :
    s.draftOf t h (.first key value) =
      finish t h (Transaction.empty.addNode s.nodes (.terminal (.ofPair key value)))
        (.ofInsertion key (.terminal key value)) (some (.terminal key value))
        (.insertion ⟨.terminal key value, key, value, none, none, .pending⟩) := rfl

theorem draftOf_beside (s : State) (t : TreeId) (h : History) (c : Tree) (path : List Fork)
    (side : Side) (key value : Bytes) :
    s.draftOf t h (.beside c path side key value) =
      let joined := Internal.join c.hash (.terminal key value) side
      let new := Fork.fill ⟨leaf key value, side⟩ c
      let tx := (Transaction.empty.addNode s.nodes (.terminal (.ofPair key value))).addNode s.nodes
        (.internal joined)
      let u := (IndexChange.ofInsertion key (.terminal key value)).addBranch joined
      finish t h (tx.addNodes s.nodes ((above new path).map Tree.node))
        { u with parents := u.parents ++ (above new path).flatMap Edit.links }
        (some (plug new path).hash)
        (.insertion ⟨(plug new path).hash, key, value, some c.hash, some side, .pending⟩) := by
  cases side <;> rfl

/-- The arguments and the version decide about an insertion. -/
theorem draftInsertion_eq (ht : s.trees[t]? = some h) (hs : h.Shows s.nodes v)
    (key value : Bytes) (reference : Option Hash) (side : Option Side) :
    s.draftInsertion t key value reference side =
      (v.insertionEdit t key value reference side).map (s.draftOf t h) := by
  simp only [draftInsertion, tree_eq_ok.mpr ht, bind, Except.bind, contains_keys hs,
    decide_eq_true_eq, Version.insertionEdit]
  by_cases hkey : key ∈ v.keys
  · simp [hkey, Except.map, throw, throwThe, MonadExceptOf.throw]
  · simp only [hkey, if_false, pure, Except.pure]
    cases v with
    | none =>
        have hroot : h.latest.node = none := hs.root
        cases reference with
        | none => simp [placeFor, hroot, Except.map, draftOf_first]
        | some r => simp [placeFor, hroot, Except.map]
    | some top =>
        have hroot : h.latest.node = some top.hash := hs.root
        cases reference with
        | none => simp [placeFor, hroot, Except.map]
        | some r =>
            cases side with
            | none => simp [placeFor, hroot, Except.map]
            | some side =>
                simp only [placeFor, hroot, ancestry_eq_find? hs]
                cases hf : top.find? r with
                | none => simp [Except.map]
                | some found =>
                    obtain ⟨c, path⟩ := found
                    obtain ⟨rfl, rfl⟩ := plug_of_find? hf
                    simp only [Option.map_some, Except.map, draftOf_beside, Terminal.hash_ofPair,
                      hash_join]
                    rw [renewPath_above _ hs.stored hs.distinct
                      (((Transaction.Apart.empty _).addNode _).addNode _)]

theorem getElem?_keys_of_findKey? {top : Tree} (hs : h.Shows s.nodes (some top)) {key value : Bytes}
    {path : List Fork} (hf : top.findKey? key = some (value, path)) :
    h.index.keys[key]? = some (Hash.terminal key value) := by
  obtain rfl := plug_of_findKey? hf
  refine (hs.index.keys key _).mpr ⟨.ofPair key value, ?_, rfl, rfl⟩
  exact (leaves_sublist (mem_subtrees_plug_self (leaf key value) path)).subset List.mem_cons_self

theorem ancestry_of_findKey? {top : Tree} (hs : h.Shows s.nodes (some top)) {key value : Bytes}
    {path : List Fork} (hf : top.findKey? key = some (value, path)) :
    s.ancestry h (Hash.terminal key value) =
      some ((above (leaf key value) path).map Tree.hash) := by
  obtain rfl := plug_of_findKey? hf
  exact (ancestry_eq_some_iff hs.stored (hs.index.parents _ rfl) hs.root).mpr
    ⟨leaf key value, path, rfl, rfl, rfl⟩

/-- The key and the version decide about a deletion. -/
theorem draftDeletion_eq (ht : s.trees[t]? = some h) (hs : h.Shows s.nodes v) (key : Bytes) :
    s.draftDeletion t key = (v.deletionEdit t key).map (s.draftOf t h) := by
  simp only [draftDeletion, tree_eq_ok.mpr ht, bind, Except.bind, Version.deletionEdit]
  cases v with
  | none =>
      have hkey : h.index.keys[key]? = none :=
        hs.index.keys_eq_none_iff.mpr (by simp [Version.keys, Version.leaves])
      simp [hkey, Except.map, throw, throwThe, MonadExceptOf.throw]
  | some top =>
      cases hf : top.findKey? key with
      | none =>
          have hkey : h.index.keys[key]? = none :=
            hs.index.keys_eq_none_iff.mpr (findKey?_eq_none_iff.mp hf)
          simp [hkey, hf, Except.map, throw, throwThe, MonadExceptOf.throw]
      | some found =>
          obtain ⟨value, path⟩ := found
          simp only [getElem?_keys_of_findKey? hs hf, ancestry_of_findKey? hs hf, hf,
            Option.bind_some]
          obtain rfl := plug_of_findKey? hf
          cases path with
          | nil => rfl
          | cons f path =>
              obtain ⟨hfm, hfd⟩ := fill_of_plug hs.stored hs.distinct
              have hparent := (Transaction.Apart.empty s.nodes).node (NodeMap.getElem?_top hfm)
              have hsibling : (f.fill (leaf key value)).node.internal?.bind
                  (·.sibling? (Hash.terminal key value)) = some f.sibling.hash :=
                sibling?_fill hfm hfd
              simp only [above, List.map_cons, hparent, hsibling]
              rw [renewPath_above (c := f.fill (leaf key value)) f.sibling hs.stored
                hs.distinct (Transaction.Apart.empty _)]
              rfl

/-! ## The nodes a draft makes -/

/-- The nodes that an insertion makes, whether they are stored already or not. -/
def insertionNodes (s : State) (t : TreeId) (key value : Bytes) (reference : Option Hash)
    (side : Option Side) : List Node :=
  match s.tree t with
  | .error _ => []
  | .ok h =>
    if h.index.keys.contains key then []
    else
      match s.placeFor t h reference side with
      | .error _ => []
      | .ok .top => [.terminal (.ofPair key value)]
      | .ok (.beside reference side path) =>
          let joined := Internal.join reference (.terminal key value) side
          .terminal (.ofPair key value) :: .internal joined ::
            s.renewed path reference joined.hash

/-- The nodes that a deletion makes, whether they are stored already or not. -/
def deletionNodes (s : State) (t : TreeId) (key : Bytes) : List Node :=
  match s.tree t with
  | .error _ => []
  | .ok h =>
    match h.index.keys[key]? with
    | none => []
    | some terminal =>
      match s.ancestry h terminal with
      | some (parent :: path) =>
        match (s.nodes[parent]?.bind Node.internal?).bind (·.sibling? terminal) with
        | some sibling => s.renewed path parent sibling
        | none => []
      | _ => []

/-- The nodes that an operation makes, whether they are stored already or not. -/
def operationNodes (s : State) (t : TreeId) : Operation → List Node
  | .insertion d => s.insertionNodes t d.key d.value d.reference d.side
  | .deletion d => s.deletionNodes t d.key

theorem hash_of_mem_renewed {path : List Hash} {old new : Hash} {n : Node}
    (hn : n ∈ s.renewed path old new) : n.hash = n.contentHash := by
  induction path generalizing old new with
  | nil => simp [renewed] at hn
  | cons ancestor path ih =>
      rw [renewed] at hn
      split at hn
      · simp at hn
      · next m hm =>
          rcases List.mem_cons.mp hn with rfl | hn
          · obtain ⟨m', -, hexchange⟩ := Option.bind_eq_some_iff.mp hm
            rw [Internal.exchange?] at hexchange
            split at hexchange
            · cases hexchange
              rfl
            · split at hexchange <;> cases hexchange
              rfl
          · exact ih hn

/-- What an operation makes is named by its content. -/
theorem hash_of_mem_operationNodes {o : Operation} {n : Node} (hn : n ∈ s.operationNodes t o) :
    n.hash = n.contentHash := by
  cases o with
  | insertion d =>
      simp only [operationNodes, insertionNodes] at hn
      split at hn
      · simp at hn
      · split at hn
        · simp at hn
        · split at hn
          · simp at hn
          · obtain rfl := List.mem_singleton.mp hn
            rfl
          · next side path _ =>
              simp only [List.mem_cons] at hn
              rcases hn with rfl | rfl | hn
              · rfl
              · cases side <;> rfl
              · exact hash_of_mem_renewed hn
  | deletion d =>
      simp only [operationNodes, deletionNodes] at hn
      split at hn
      · simp at hn
      · split at hn
        · simp at hn
        · split at hn
          · split at hn
            · exact hash_of_mem_renewed hn
            · simp at hn
          · simp at hn

theorem insertionNodes_eq (ht : s.trees[t]? = some h) (hs : h.Shows s.nodes v) {e : Edit}
    {key value : Bytes} {reference : Option Hash} {side : Option Side}
    (he : v.insertionEdit t key value reference side = .ok e) :
    s.insertionNodes t key value reference side = e.made := by
  simp only [insertionNodes, tree_eq_ok.mpr ht, contains_keys hs, decide_eq_true_eq]
  unfold Version.insertionEdit at he
  split at he
  · cases he
  · next hkey =>
      rw [if_neg hkey]
      cases v with
      | none =>
          have hroot : h.latest.node = none := hs.root
          cases reference with
          | none =>
              cases he
              simp [placeFor, hroot, Edit.made, Tree.node]
          | some r => cases he
      | some top =>
          have hroot : h.latest.node = some top.hash := hs.root
          cases reference with
          | none => cases he
          | some r =>
              cases side with
              | none => cases he
              | some side =>
                  cases hf : top.find? r with
                  | none => simp [hf] at he
                  | some found =>
                      obtain ⟨c, path⟩ := found
                      obtain ⟨rfl, rfl⟩ := plug_of_find? hf
                      simp only [hf, Except.ok.injEq] at he
                      subst he
                      simp only [placeFor, hroot, ancestry_eq_find? hs, hf, Option.map_some,
                        hash_join, renewed_above _ hs.stored hs.distinct]
                      cases side <;> rfl

theorem deletionNodes_eq (ht : s.trees[t]? = some h) (hs : h.Shows s.nodes v) {e : Edit}
    {key : Bytes} (he : v.deletionEdit t key = .ok e) : s.deletionNodes t key = e.made := by
  simp only [deletionNodes, tree_eq_ok.mpr ht]
  cases v with
  | none => simp [Version.deletionEdit] at he
  | some top =>
      cases hf : top.findKey? key with
      | none => simp [Version.deletionEdit, hf] at he
      | some found =>
          obtain ⟨value, path⟩ := found
          simp only [getElem?_keys_of_findKey? hs hf, ancestry_of_findKey? hs hf]
          obtain rfl := plug_of_findKey? hf
          simp only [Version.deletionEdit, Option.bind_some, hf] at he
          cases path with
          | nil =>
              cases he
              rfl
          | cons f path =>
              cases he
              obtain ⟨hfm, hfd⟩ := fill_of_plug hs.stored hs.distinct
              have hsibling : (f.fill (leaf key value)).node.internal?.bind
                  (·.sibling? (Hash.terminal key value)) = some f.sibling.hash :=
                sibling?_fill hfm hfd
              simp only [above, List.map_cons, NodeMap.getElem?_top hfm, Option.bind_some, hsibling]
              exact renewed_above (c := f.fill (leaf key value)) f.sibling hs.stored
                hs.distinct

theorem operationNodes_eq (ht : s.trees[t]? = some h) (hs : h.Shows s.nodes v) {e : Edit}
    {o : Operation} (he : v.editFor t o = .ok e) : s.operationNodes t o = e.made := by
  cases o with
  | insertion d => exact insertionNodes_eq ht hs he
  | deletion d => exact deletionNodes_eq ht hs he

end State

end MerkleStore
