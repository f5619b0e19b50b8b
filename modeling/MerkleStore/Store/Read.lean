import MerkleStore.State.Path
import MerkleStore.Store
import MerkleStore.Walk

/-!
# Reading from a store

What can be asked of a store. Every question about a tree fails for a tree that
is out of service or unknown; questions about nodes by their hash are asked of
the store as a whole.
-/

namespace MerkleStore.Store

/-- Whether a tree has been created. -/
def hasTree (s : Store) (t : TreeId) : Bool := s.state.trees.contains t

/-- All trees in the order of their ids. -/
def treeIds (s : Store) : List TreeId := s.state.trees.keys

/-- How many nodes are stored. -/
def numNodes (s : Store) : Nat := s.state.nodes.size

/-! ### Roots -/

/-- The root of the last generation. -/
def latestRoot (s : Store) (t : TreeId) : Except Error Root := do
  return (← s.servedTree t).latest

/-- The number of the last generation. -/
def latestGeneration (s : Store) (t : TreeId) : Except Error Nat := do
  return (← s.latestRoot t).generation

/-- The root of one generation. -/
def root (s : Store) (t : TreeId) (generation : Nat) : Except Error Root := do
  let h ← s.servedTree t
  match h.roots[generation]? with
  | some r => return r
  | none => throw (.notFound (.generation generation t))

/-- The roots from one generation up to, but not including, another. -/
def rootsBetween (s : Store) (t : TreeId) (first last : Nat) : Except Error (List Root) := do
  return ((← s.servedTree t).roots.take last).drop first

/-- The last generation with this hash at its root. -/
def lastRootWith (s : Store) (t : TreeId) (node : Option Hash) : Except Error (Option Root) := do
  return (← s.servedTree t).roots.reverse.find? (·.node == node)

/-- Fails for a hash that was never at the root of the tree. -/
def requireRoot (s : Store) (t : TreeId) (hash : Hash) : Except Error Unit := do
  match ← s.lastRootWith t (some hash) with
  | some _ => return ()
  | none => throw (.notFound (.root hash t))

/-! ### Nodes -/

/-- Any stored node. -/
def node (s : Store) (hash : Hash) : Except Error Node := s.state.node hash

/-- The walk under a hash, left before right. -/
def preorder (s : Store) (start : Hash) : Trace := s.state.nodes.preorder start

/-- The leaf that holds a key in the last generation. -/
def terminal (s : Store) (t : TreeId) (key : Bytes) : Except Error Terminal := do
  let h ← s.servedTree t
  match h.index.keys[key]? with
  | none => throw (.notFound (.key key t))
  | some hash =>
    match ← s.state.node hash with
    | .terminal n => return n
    | .internal _ => throw (.corruption (.keyAtInternal hash))

/-- The branches from the parent of a node up to the root of the last generation. -/
def ancestors (s : Store) (t : TreeId) (hash : Hash) : Except Error (List Internal) := do
  let h ← s.servedTree t
  match s.state.ancestry h hash with
  | none => throw (.notFound (.member hash t))
  | some path =>
    path.mapM fun ancestor => do
      match ← s.state.node ancestor with
      | .internal n => return n
      | .terminal _ => throw (.corruption (.terminalAncestor ancestor))

/-- The leaves under a root the tree has had, from left to right; without a root
those of the last generation. -/
def keysValues (s : Store) (t : TreeId) (root : Option Hash) : Except Error (List Terminal) := do
  let root ←
    match root with
    | some hash => do
        s.requireRoot t hash
        pure (some hash)
    | none => do pure (← s.latestRoot t).node
  match root with
  | none => return []
  | some hash => return (← (s.preorder hash).nodes).filterMap Node.terminal?

/-! ### Operations -/

/-- The operations that made the generations after `first` up to `last`, each with
the present status of its generation. -/
def operations (s : Store) (t : TreeId) (first last : Nat) : Except Error (List Operation) := do
  let h ← s.servedTree t
  let latest := h.latest.generation
  if last < first ∨ latest < last then throw (.invalidRange first last latest)
  if h.operations.length < last then throw .outOfBounds
  let made := (h.operations.take last).drop first
  let roots := (h.roots.take (last + 1)).drop (first + 1)
  return made.zipWith (fun o r => o.withStatus r.status) roots

end MerkleStore.Store
