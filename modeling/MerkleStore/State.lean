import MerkleStore.Error
import MerkleStore.History

/-!
# The state of a store

All nodes and the history of every tree, as the journal has written them down. A
batch of records is first checked as a whole (`checkBatch`): roots and operations
of a tree must follow one another without a gap, and a status must be that of a
generation that exists. Records are then applied one after the other.
-/

namespace MerkleStore

/-- Nodes by the hash they claim. -/
abbrev NodeMap := Std.ExtTreeMap Hash Node

/-- Everything that has been committed. -/
structure State where
  nodes : NodeMap
  trees : Std.ExtTreeMap TreeId History

namespace State

/-- Nothing has been committed. -/
def empty : State := ⟨∅, ∅⟩

/-- The history of a tree that exists. -/
def tree (s : State) (t : TreeId) : Except Error History :=
  match s.trees[t]? with
  | some h => .ok h
  | none => .error (.notFound (.tree t))

/-- A node that is stored. -/
def node (s : State) (hash : Hash) : Except Error Node :=
  match s.nodes[hash]? with
  | some n => .ok n
  | none => .error (.notFound (.node hash))

/-! ### Checking a batch -/

/-- How many roots and operations every tree has. -/
abbrev Counts := TreeId → Nat × Nat

/-- The counts of a state. -/
def counts (s : State) : Counts := fun t =>
  match s.trees[t]? with
  | some h => (h.roots.length, h.operations.length)
  | none => (0, 0)

/-- The counts with those of one tree exchanged. -/
def Counts.set (c : Counts) (t : TreeId) (n : Nat × Nat) : Counts :=
  fun t' => if t' = t then n else c t'

/-- The counts after one record, if it may come next. -/
def Counts.step (c : Counts) : Record → Except Error Counts
  | .node _ => .ok c
  | .root r =>
      let (roots, operations) := c r.tree
      if r.generation = roots then .ok (c.set r.tree (roots + 1, operations))
      else .error (.invalidArgument (.generationExpected r.tree roots r.generation))
  | .operation t g _ =>
      let (roots, operations) := c t
      if g = operations + 1 ∧ g < roots then .ok (c.set t (roots, operations + 1))
      else .error (.invalidArgument (.operationRefused t g))
  | .status t g _ =>
      if g < (c t).1 then .ok c else .error (.notFound (.generation g t))

/-- Whether records may be committed together. -/
def checkBatch (s : State) (records : List Record) : Except Error Unit := do
  let _ ← records.foldlM Counts.step s.counts
  return ()

/-! ### Applying records -/

/-- Exchanges the history of one tree. -/
def setTree (s : State) (t : TreeId) (h : History) : State :=
  { s with trees := s.trees.insert t h }

/-- The state with one node more; of two nodes with one hash the first one stays. -/
def addNode (s : State) (n : Node) : State :=
  { s with nodes := s.nodes.insertIfNew n.hash n }

/-- The state after one record. -/
def apply (s : State) : Record → Except Error State
  | .node n => .ok (s.addNode n)
  | .root r =>
      match s.trees[r.tree]? with
      | some h =>
          if r.generation = h.roots.length then .ok (s.setTree r.tree (h.addRoot r))
          else .error (.corruption (.generationGap r.generation r.tree))
      | none =>
          if r.generation = 0 then .ok (s.setTree r.tree (.start r))
          else .error (.corruption (.lateStart r.tree r.generation))
  | .operation t g o =>
      match s.trees[t]? with
      | some h =>
          if g = h.operations.length + 1 then .ok (s.setTree t (h.addOperation o))
          else .error (.corruption (.operationOutOfOrder g t))
      | none => .error (.corruption (.operationOfUnknownTree t))
  | .status t g status =>
      match s.trees[t]? with
      | some h =>
          if g < h.roots.length then .ok (s.setTree t (h.updateStatus g status))
          else .error (.corruption (.statusOfUnknownGeneration g t))
      | none => .error (.corruption (.statusOfUnknownGeneration g t))

/-- The state after records, one after the other. -/
def applyAll (s : State) (records : List Record) : Except Error State :=
  records.foldlM apply s

/-- The state after a change of the index of one tree. -/
def updateIndex (s : State) (t : TreeId) (u : IndexChange) : State :=
  match s.trees[t]? with
  | some h => s.setTree t { h with index := h.index.apply u }
  | none => s

end State

end MerkleStore
