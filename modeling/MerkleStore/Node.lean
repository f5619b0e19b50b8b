import MerkleStore.Hash

/-!
# Nodes

A tree is made of terminal nodes, which hold one key with its value, and
internal nodes, which join two subtrees. Nodes never change; a node that occurs
in many generations is stored once, under its hash.

The hash is a field of its own: a node that was read back from somewhere may
claim a hash that is not the one of its content (`contentHash`).
-/

namespace MerkleStore

/-- On which side of a subtree something stands. -/
inductive Side
  | left
  | right
deriving DecidableEq

/-- The name of a side. -/
def Side.name : Side → String
  | .left => "left"
  | .right => "right"

/-- A letter of the ASCII alphabet in lower case, any other character as it is. -/
def lowerAscii (c : Char) : Char :=
  if 'A' ≤ c ∧ c ≤ 'Z' then Char.ofNat (c.toNat + 32) else c

/-- Reads the name of a side in any mixture of cases; a refused name comes back
in lower case. -/
def Side.ofName (text : String) : Except String Side :=
  match String.ofList (text.toList.map lowerAscii) with
  | "left" => .ok .left
  | "right" => .ok .right
  | other => .error other

/-- A leaf: one key with its value. -/
structure Terminal where
  hash : Hash
  key : Bytes
  value : Bytes
deriving DecidableEq

/-- A branch: two subtrees. -/
structure Internal where
  hash : Hash
  left : Hash
  right : Hash
deriving DecidableEq

/-- The leaf for a key and a value. -/
def Terminal.ofPair (key value : Bytes) : Terminal := ⟨.terminal key value, key, value⟩

namespace Internal

/-- The branch over two subtrees. -/
def ofPair (left right : Hash) : Internal := ⟨.internal left right, left, right⟩

/-- The branch that joins `new` to `reference`, with `new` on the given side. -/
def join (reference new : Hash) : Side → Internal
  | .left => ofPair new reference
  | .right => ofPair reference new

/-- The branch with its child `old` exchanged for `new`; a child that occurs on
both sides is exchanged on the left. -/
def exchange? (n : Internal) (old new : Hash) : Option Internal :=
  if n.left = old then some (ofPair new n.right)
  else if n.right = old then some (ofPair n.left new)
  else none

/-- The child beside `child`. -/
def sibling? (n : Internal) (child : Hash) : Option Hash :=
  if n.left = child then some n.right
  else if n.right = child then some n.left
  else none

/-- The child on a side. -/
def child (n : Internal) : Side → Hash
  | .left => n.left
  | .right => n.right

end Internal

/-- A node of a tree. -/
inductive Node
  | terminal (node : Terminal)
  | internal (node : Internal)
deriving DecidableEq

namespace Node

/-- The hash a node claims. -/
def hash : Node → Hash
  | terminal n => n.hash
  | internal n => n.hash

/-- The hash of what a node holds. -/
def contentHash : Node → Hash
  | terminal n => .terminal n.key n.value
  | internal n => .internal n.left n.right

def terminal? : Node → Option Terminal
  | terminal n => some n
  | internal _ => none

def internal? : Node → Option Internal
  | terminal _ => none
  | internal n => some n

end Node

@[simp] theorem Terminal.hash_ofPair (key value : Bytes) :
    (Terminal.ofPair key value).hash = .terminal key value := rfl

@[simp] theorem Internal.hash_ofPair (left right : Hash) :
    (Internal.ofPair left right).hash = .internal left right := rfl

end MerkleStore
