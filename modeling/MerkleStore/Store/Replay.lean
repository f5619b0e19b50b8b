import MerkleStore.Store.Write

/-!
# Repeating operations

Operations that were made on one tree are made again on another. Each must lead
to the root it recorded; at the first that does not, the tree stays at the last
generation that was verified.
-/

namespace MerkleStore.Store

/-- Makes one operation again, if it leads to the root it recorded. -/
def replayOne (t : TreeId) : Operation → Action Unit
  | .insertion d => do
      let _ ← insertToward t d.key d.value d.reference d.side (some (some d.root))
  | .deletion d => deleteToward t d.key (some d.root)

/-- Makes operations again, starting from the hash at the root, and gives the hash
at the root afterwards. -/
def replayFrom (t : TreeId) : Option Hash → List Operation → Action (Option Hash)
  | root, [] => return root
  | _, o :: os => do
      replayOne t o
      replayFrom t o.root os

/-- Makes operations again on a tree and gives the hash at its root afterwards. -/
def replay (t : TreeId) (operations : List Operation) : Action (Option Hash) := do
  let r ← .read (·.latestRoot t)
  replayFrom t r.node operations

end MerkleStore.Store
