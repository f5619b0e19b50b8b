import MerkleStore.State

/-!
# Walks over a subtree

A walk visits a node before its subtrees, and all of one subtree before the
other. `Trace` is a whole walk at once: the nodes it visits, and the failure it
ends with when a node is not stored. A walk that goes deeper than there are
nodes has met one of them below itself and would never end.

`Cursor` is a walk taken step by step; it looks each node up as it is reached.
-/

namespace MerkleStore

/-- A whole walk. -/
structure Trace where
  /-- Nodes under the hashes they were looked up by. -/
  visited : List (Hash × Node)
  failure : Option Error

namespace Trace

/-- A walk of no steps. -/
def done : Trace := ⟨[], none⟩

/-- A walk that fails at once. -/
def fail (e : Error) : Trace := ⟨[], some e⟩

/-- One walk after another; nothing follows a failure. -/
def append (a b : Trace) : Trace :=
  match a.failure with
  | some _ => a
  | none => ⟨a.visited ++ b.visited, b.failure⟩

instance : Append Trace := ⟨append⟩

/-- The nodes of a walk that did not fail. -/
def nodes (t : Trace) : Except Error (List Node) :=
  match t.failure with
  | some e => .error e
  | none => .ok (t.visited.map Prod.snd)

/-- All that a walk gives, one thing after the other. -/
def items (t : Trace) : List (Except Error Node) :=
  t.visited.map (fun v => .ok v.2) ++ t.failure.toList.map .error

end Trace

/-- The other side. -/
def Side.other : Side → Side
  | .left => .right
  | .right => .left

namespace NodeMap

/-- The walk under a hash that takes the subtree on the side `first` before the
other one and leaves out whatever lies under the hashes to `skip`, at most
`depth` nodes deep. -/
def walkWithin (nodes : NodeMap) (first : Side) (skip : Hash → Bool) : Nat → Hash → Trace
  | 0, _ => .fail .endless
  | depth + 1, h =>
      if skip h then .done
      else
        match nodes[h]? with
        | none => .fail (.notFound (.node h))
        | some (.terminal n) => ⟨[(h, .terminal n)], none⟩
        | some (.internal n) =>
            ⟨[(h, .internal n)], none⟩ ++
              (walkWithin nodes first skip depth (n.child first) ++
                walkWithin nodes first skip depth (n.child first.other))

/-- The walk under a hash that leaves out what lies under the hashes to `skip`. -/
def walk (nodes : NodeMap) (first : Side) (skip : Hash → Bool) (start : Hash) : Trace :=
  nodes.walkWithin first skip (nodes.size + 1) start

/-- The walk over everything under a hash, left before right. -/
def preorder (nodes : NodeMap) (start : Hash) : Trace :=
  nodes.walk .left (fun _ => false) start

end NodeMap

/-- A walk that has got somewhere. -/
structure Cursor where
  start : Hash
  /-- Where the walk goes on, the next place first. -/
  pending : List Hash
  hasFailed : Bool
deriving DecidableEq

namespace Cursor

/-- A walk that has not begun. -/
def ofStart (h : Hash) : Cursor := ⟨h, [h], false⟩

/-- The same walk from the start. -/
def rewind (c : Cursor) : Cursor := ofStart c.start

/-- The next node, or an error after which the walk is over; nothing at the end. -/
def next (nodes : NodeMap) (c : Cursor) : Option (Except Error Node) × Cursor :=
  if c.hasFailed then (none, c)
  else
    match c.pending with
    | [] => (none, c)
    | h :: rest =>
      match nodes[h]? with
      | none => (some (.error (.notFound (.node h))), { c with pending := rest, hasFailed := true })
      | some (.terminal n) => (some (.ok (.terminal n)), { c with pending := rest })
      | some (.internal n) =>
          (some (.ok (.internal n)), { c with pending := n.left :: n.right :: rest })

/-- At most `count` steps. -/
def take (nodes : NodeMap) : Nat → Cursor → List (Except Error Node) × Cursor
  | 0, c => ([], c)
  | count + 1, c =>
      match c.next nodes with
      | (none, c) => ([], c)
      | (some item, c) =>
        let (items, c) := take nodes count c
        (item :: items, c)

/-- All that is still to come. -/
def remaining (nodes : NodeMap) (c : Cursor) : List (Except Error Node) :=
  if c.hasFailed then []
  else ((c.pending.map nodes.preorder).foldr Trace.append .done).items

end Cursor

end MerkleStore
