import MerkleStore.State

/-!
# Transactions

Records are collected before they are committed together. A node that is stored
already, or was collected before, is not collected again.
-/

namespace MerkleStore

/-- Records that wait to be committed. -/
structure Transaction where
  records : List Record
  /-- The nodes among them. -/
  staged : NodeMap
  updates : List (TreeId × IndexChange)

namespace Transaction

/-- Nothing has been collected. -/
def empty : Transaction := ⟨[], ∅, []⟩

/-- Adds a record that is no node. -/
def add (tx : Transaction) (r : Record) : Transaction := { tx with records := tx.records ++ [r] }

/-- Adds a node that neither the transaction nor the stored nodes have. -/
def addNode (tx : Transaction) (nodes : NodeMap) (n : Node) : Transaction :=
  if tx.staged.contains n.hash || nodes.contains n.hash then tx
  else { tx with staged := tx.staged.insert n.hash n, records := tx.records ++ [.node n] }

/-- A node of the transaction or else a stored one. -/
def node (tx : Transaction) (s : State) (hash : Hash) : Except Error Node :=
  match tx.staged[hash]? with
  | some n => .ok n
  | none => s.node hash

/-- Adds a change of the index of a tree. -/
def addUpdate (tx : Transaction) (t : TreeId) (u : IndexChange) : Transaction :=
  { tx with updates := tx.updates ++ [(t, u)] }

/-- Nothing would be written and nothing changed. -/
def isVoid (tx : Transaction) : Bool := tx.records.isEmpty && tx.updates.isEmpty

end Transaction

end MerkleStore
