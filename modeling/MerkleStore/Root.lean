import MerkleStore.Hash

/-!
# Roots

Every write gives a tree a new generation, and a root records what the tree
was then: the hash at its top, or nothing for the empty tree. A root starts
pending and may be confirmed later; a confirmation is final.
-/

namespace MerkleStore

/-- Whether a generation has been confirmed. -/
inductive Status
  | pending
  | committed
deriving DecidableEq

namespace Status

/-- The number a status is sent as. -/
def code : Status → Nat
  | pending => 1
  | committed => 2

def ofCode? : Nat → Option Status
  | 1 => some pending
  | 2 => some committed
  | _ => none

def name : Status → String
  | pending => "pending"
  | committed => "committed"

def ofName? : String → Option Status
  | "pending" => some pending
  | "committed" => some committed
  | _ => none

@[simp] theorem ofCode?_code (s : Status) : ofCode? s.code = some s := by cases s <;> rfl

@[simp] theorem ofName?_name (s : Status) : ofName? s.name = some s := by cases s <;> rfl

end Status

/-- What a tree was at one generation; `node` is absent for the empty tree. -/
structure Root where
  tree : TreeId
  generation : Nat
  node : Option Hash
  status : Status
deriving DecidableEq

namespace Root

/-- Generation 0 of a tree. -/
def empty (tree : TreeId) : Root := ⟨tree, 0, none, .pending⟩

/-- The pending generation after this one. -/
def next (r : Root) (node : Option Hash) : Root := ⟨r.tree, r.generation + 1, node, .pending⟩

/-- The root that is read back once this one is written down: a generation takes eight
bytes, so that the one after the last of them is written as zero. -/
def written (r : Root) : Root := { r with generation := r.generation % Nat.pow 2 64 }

theorem written_eq_self {r : Root} (h : r.generation < Nat.pow 2 64) : r.written = r := by
  rw [written, Nat.mod_eq_of_lt h]

end Root

end MerkleStore
