import MerkleStore.State

/-!
# The path to the root

The way up from a node of the latest generation goes from parent to parent as
the index names them. Every step is checked against the stored parent, so that
an entry left over from an earlier generation leads nowhere.
-/

namespace MerkleStore.State

/-- Whether a stored branch has this child. -/
def hasChild (s : State) (parent child : Hash) : Bool :=
  match s.nodes[parent]? with
  | some (.internal n) => n.left == child || n.right == child
  | _ => false

/-- The ancestors of a node up to `root`, the parent first; at most `fuel` of them. -/
def climb (s : State) (parents : Std.ExtTreeMap Hash Hash) (root : Hash) :
    Nat → Hash → Option (List Hash)
  | 0, h => if h = root then some [] else none
  | fuel + 1, h =>
      if h = root then some []
      else
        match parents[h]? with
        | none => none
        | some parent =>
            if s.hasChild parent h then (climb s parents root fuel parent).map (parent :: ·)
            else none

/-- The ancestors of a node in the latest generation, the parent first; none if the
node is not part of it. -/
def ancestry (s : State) (h : History) (target : Hash) : Option (List Hash) :=
  match h.latest.node with
  | none => none
  | some root => s.climb h.index.parents root (s.nodes.size + 1) target

end MerkleStore.State
