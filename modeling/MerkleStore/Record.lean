import MerkleStore.Operation

/-!
# Records

What a store writes down: new nodes, new roots, the operations that made them
and later changes of status. A list of records is written as a whole or not at
all.
-/

namespace MerkleStore

/-- One durable change. -/
inductive Record
  | node (node : Node)
  | root (root : Root)
  /-- The operation that made `generation`. -/
  | operation (tree : TreeId) (generation : Nat) (operation : Operation)
  /-- A new status of a generation that exists. -/
  | status (tree : TreeId) (generation : Nat) (status : Status)
deriving DecidableEq

end MerkleStore
