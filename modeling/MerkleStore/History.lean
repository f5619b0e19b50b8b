import MerkleStore.Index
import MerkleStore.Operation

/-!
# The history of a tree

All roots of a tree from generation 0 on, and the operations that made them: the
operation at position `i` made generation `i + 1`. A tree starts with a root, so
there is always a latest one.
-/

namespace MerkleStore

/-- Everything a tree has been. -/
structure History where
  roots : List Root
  operations : List Operation
  index : Index
  roots_ne_nil : roots ≠ []

namespace History

/-- A tree that has just been made. -/
def start (r : Root) : History := ⟨[r], [], .empty, by simp⟩

/-- The root of the last generation. -/
def latest (h : History) : Root := h.roots.getLast h.roots_ne_nil

/-- One more generation. -/
def addRoot (h : History) (r : Root) : History :=
  { h with roots := h.roots ++ [r], roots_ne_nil := by simp }

/-- One more operation. -/
def addOperation (h : History) (o : Operation) : History :=
  { h with operations := h.operations ++ [o] }

/-- Sets the status of a generation, unless it has been confirmed already. -/
def updateStatus (h : History) (generation : Nat) (s : Status) : History :=
  let set (r : Root) : Root := if r.status = .pending then { r with status := s } else r
  { h with
    roots := h.roots.modify generation set
    roots_ne_nil := by simpa using h.roots_ne_nil }

end History

end MerkleStore
