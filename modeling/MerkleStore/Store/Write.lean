import MerkleStore.Store.Read

/-!
# Writing to a store

A write works out one new generation from the last one (`Draft`) and commits it
as a whole. Only the branches on the way from the changed place up to the root
are made anew; everything beside that way is shared with earlier generations.

An insertion puts a new leaf beside a node of the last generation: a new branch
joins the two and takes the place of that node. A deletion lets the sibling of a
leaf take the place of their parent.
-/

namespace MerkleStore

/-- A generation that has been worked out but not committed. -/
structure Draft where
  transaction : Transaction
  generation : Nat
  /-- The hash at the root of the new generation. -/
  root : Option Hash

/-- Where a new leaf goes. -/
inductive Place
  /-- The leaf is the whole tree. -/
  | top
  /-- Beside a node with these ancestors, the parent first. -/
  | beside (reference : Hash) (side : Side) (path : List Hash)

namespace State

/-- Where a new leaf goes if these arguments are given. -/
def placeFor (s : State) (t : TreeId) (h : History) (reference : Option Hash)
    (side : Option Side) : Except Error Place :=
  match h.latest.node, reference with
  | none, none => .ok .top
  | none, some r => .error (.notFound (.referenceOfEmpty r t))
  | some _, none => .error (.invalidArgument .referenceRequired)
  | some _, some r =>
      match side with
      | none => .error (.invalidArgument .sideRequired)
      | some side =>
        match s.ancestry h r with
        | none => .error (.notFound (.reference r t))
        | some path => .ok (.beside r side path)

/-- Exchanges `old` for `new` under every ancestor in turn, the parent first, and
gives the hash at the root. -/
def renewPath (s : State) : Transaction → IndexChange → List Hash → Hash → Hash →
    Except Error (Transaction × IndexChange × Hash)
  | tx, u, [], _, new => .ok (tx, u, new)
  | tx, u, ancestor :: path, old, new => do
      match (← tx.node s ancestor).internal?.bind (·.exchange? old new) with
      | none => throw (.corruption (.notParent ancestor old))
      | some n =>
          let tx := tx.addNode s.nodes (.internal n)
          renewPath s tx (u.addBranch n) path ancestor n.hash

/-- Puts the new root and the operation that led to it behind the nodes. -/
def finish (t : TreeId) (h : History) (tx : Transaction) (u : IndexChange) (root : Option Hash)
    (operation : Operation) : Draft :=
  let next := h.latest.next root
  { transaction :=
      ((tx.add (.root next)).add (.operation t next.generation operation)).addUpdate t u
    generation := next.generation
    root }

/-- The generation with a new leaf. -/
def draftInsertion (s : State) (t : TreeId) (key value : Bytes) (reference : Option Hash)
    (side : Option Side) : Except Error Draft := do
  let h ← s.tree t
  if h.index.keys.contains key then throw (.duplicateKey key)
  let place ← s.placeFor t h reference side
  let leaf := Terminal.ofPair key value
  let tx := Transaction.empty.addNode s.nodes (.terminal leaf)
  let u := IndexChange.ofInsertion key leaf.hash
  match place with
  | .top =>
      return finish t h tx u (some leaf.hash)
        (.insertion ⟨leaf.hash, key, value, none, none, .pending⟩)
  | .beside reference side path => do
      let joined := Internal.join reference leaf.hash side
      let tx := tx.addNode s.nodes (.internal joined)
      let (tx, u, root) ← s.renewPath tx (u.addBranch joined) path reference joined.hash
      return finish t h tx u (some root)
        (.insertion ⟨root, key, value, some reference, some side, .pending⟩)

/-- The generation without a key. -/
def draftDeletion (s : State) (t : TreeId) (key : Bytes) : Except Error Draft := do
  let h ← s.tree t
  match h.index.keys[key]? with
  | none => throw (.notFound (.key key t))
  | some leaf =>
    match s.ancestry h leaf with
    | none => throw (.corruption (.indexOutsideRoot t leaf))
    | some [] =>
        return finish t h .empty (.ofDeletion key) none (.deletion ⟨none, key, .pending⟩)
    | some (parent :: path) =>
      match (← Transaction.empty.node s parent).internal?.bind (·.sibling? leaf) with
      | none => throw (.corruption (.notParent parent leaf))
      | some sibling =>
        let (tx, u, root) ← s.renewPath .empty (.ofDeletion key) path parent sibling
        return finish t h tx u (some root) (.deletion ⟨some root, key, .pending⟩)

end State

namespace Store

/-- Commits a draft; where a root is expected, only if the draft has it. -/
def commitDraft (t : TreeId) (d : Draft) (expected : Option (Option Hash)) : Action Unit :=
  match expected with
  | some root =>
      if d.root = root then commit d.transaction
      else .fail (.integrity (.replay t d.generation d.root root))
  | none => commit d.transaction

/-- Creates a tree with an empty generation 0. -/
def addTree (t : TreeId) : Action Unit := fun s =>
  if s.hasTree t then (.error (.treeExists t), s)
  else commit (Transaction.empty.add (.root (.empty t))) s

/-- Inserts a key with its value beside a node, if that leads to the expected root,
and gives the hash of the new leaf. -/
def insertToward (t : TreeId) (key value : Bytes) (reference : Option Hash)
    (side : Option Side) (expected : Option (Option Hash)) : Action Hash := do
  .read (·.requireInService t)
  let d ← .read fun s => s.state.draftInsertion t key value reference side
  commitDraft t d expected
  return Hash.terminal key value

/-- Inserts a key with its value beside a node, or into an empty tree without one,
and gives the hash of the new leaf. -/
def insert (t : TreeId) (key value : Bytes) (reference : Option Hash) (side : Option Side) :
    Action Hash :=
  insertToward t key value reference side none

/-- Deletes a key, if that leads to the expected root. -/
def deleteToward (t : TreeId) (key : Bytes) (expected : Option (Option Hash)) :
    Action Unit := do
  .read (·.requireInService t)
  let d ← .read fun s => s.state.draftDeletion t key
  commitDraft t d expected

/-- Deletes a key. -/
def delete (t : TreeId) (key : Bytes) : Action Unit := deleteToward t key none

/-- Confirms a generation; nothing happens if it has been confirmed before. -/
def confirm (t : TreeId) (generation : Nat) : Action Unit := do
  let r ← .read (·.root t generation)
  if r.status = .committed then return ()
  commit (Transaction.empty.add (.status t generation .committed))

end Store

end MerkleStore
