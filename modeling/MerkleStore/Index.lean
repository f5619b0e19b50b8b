import Std.Data.ExtTreeMap
import MerkleStore.Node

/-!
# The index of a tree

Two tables for the latest generation of a tree: the terminal node of every key,
and a parent of every node that was ever put under one. Entries of nodes that
have left the tree stay in the second table, so a parent found there counts only
after it has been followed up to the root.
-/

namespace MerkleStore

/-- Tables for looking up keys and parents. -/
structure Index where
  keys : Std.ExtTreeMap Bytes Hash
  parents : Std.ExtTreeMap Hash Hash

/-- An index with no entries. -/
def Index.empty : Index := ⟨∅, ∅⟩

/-- What one write changes in an index. -/
structure IndexChange where
  /-- Children with their new parents; of two entries the later one counts. -/
  parents : List (Hash × Hash)
  insertedKey : Option (Bytes × Hash)
  removedKey : Option Bytes

namespace IndexChange

/-- A key gets its terminal node. -/
def ofInsertion (key : Bytes) (terminal : Hash) : IndexChange := ⟨[], some (key, terminal), none⟩

/-- A key is taken out. -/
def ofDeletion (key : Bytes) : IndexChange := ⟨[], none, some key⟩

/-- Both children of a new branch get it as their parent. -/
def addBranch (u : IndexChange) (n : Internal) : IndexChange :=
  { u with parents := u.parents ++ [(n.left, n.hash), (n.right, n.hash)] }

end IndexChange

namespace Index

/-- Enters children with their parents, in order. -/
def insertParents (i : Index) (entries : List (Hash × Hash)) : Index :=
  { i with parents := entries.foldl (fun m e => m.insert e.1 e.2) i.parents }

/-- The index after a write. -/
def apply (i : Index) (u : IndexChange) : Index :=
  let i := i.insertParents u.parents
  let keys :=
    match u.removedKey with
    | some key => i.keys.erase key
    | none => i.keys
  let keys :=
    match u.insertedKey with
    | some (key, hash) => keys.insert key hash
    | none => keys
  { i with keys }

/-- Enters a node of the tree: a leaf with its key, a branch as a parent. -/
def addNode (i : Index) : Node → Index
  | .terminal n => { i with keys := i.keys.insert n.key n.hash }
  | .internal n => i.insertParents [(n.left, n.hash), (n.right, n.hash)]

end Index

end MerkleStore
