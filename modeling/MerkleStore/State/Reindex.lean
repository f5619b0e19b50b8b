import MerkleStore.Walk

/-!
# Indexes out of the latest roots

The index of a tree can be made again from the nodes of its latest generation.
This is how a store gets its indexes when it is opened.
-/

namespace MerkleStore.State

/-- The index of the nodes under a root. -/
def indexUnder (nodes : NodeMap) : Option Hash → Except Error Index
  | none => .ok .empty
  | some h => do
      let visited ← (nodes.preorder h).nodes
      return visited.foldl Index.addNode .empty

/-- The state with the index of every tree made again, in the order of tree ids. -/
def reindex (s : State) : Except Error State := do
  let trees ← s.trees.toList.mapM fun (t, h) => do
    let index ← indexUnder s.nodes h.latest.node
    return (t, { h with index })
  return { s with trees := .ofList trees }

end MerkleStore.State
