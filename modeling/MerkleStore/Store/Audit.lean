import MerkleStore.Store.Read

/-!
# Auditing a store

An audit computes the hash of every stored node again and goes through every
tree, in the order of ids: its roots with everything under them, then its
operations, then its index. Nodes under no root come last. It stops at the first
thing that is wrong, and the tree to blame is taken out of service.
-/

namespace MerkleStore

namespace State

/-- Hashes of nodes that have been found in order. -/
abbrev Verified := Std.ExtTreeSet Hash

/-- Verifies everything under a hash that has not been verified before, at most
`depth` nodes deep. -/
def verifyWithin (s : State) (t : TreeId) : Nat → Verified → Hash → Except Error Verified
  | 0, _, _ => .error .endless
  | depth + 1, verified, h =>
      if verified.contains h then .ok verified
      else
        match s.nodes[h]? with
        | none => .error (.integrity (.damaged t (.missingNode h)))
        | some n =>
            if n.hash ≠ h ∨ n.contentHash ≠ h then
              .error (.integrity (.damaged t (.wrongContent h n.contentHash)))
            else
              let verified := verified.insert h
              match n with
              | .terminal _ => .ok verified
              | .internal n => do
                  let verified ← verifyWithin s t depth verified n.left
                  verifyWithin s t depth verified n.right

/-- Verifies everything under a root. -/
def verify (s : State) (t : TreeId) (verified : Verified) (root : Hash) : Except Error Verified :=
  s.verifyWithin t (s.nodes.size + 2) verified root

/-- Verifies roots that start at a position of the history. -/
def verifyRoots (s : State) (t : TreeId) : Nat → Verified → List Root → Except Error Verified
  | _, verified, [] => .ok verified
  | position, verified, r :: rs => do
      if r.generation ≠ position then
        throw (.integrity (.damaged t (.misplacedGeneration r.generation position)))
      let verified ←
        match r.node with
        | none => pure verified
        | some root => s.verify t verified root
      verifyRoots s t (position + 1) verified rs

/-- Checks that there is one operation for every generation after 0, with the hash
at its root. -/
def auditOperations (t : TreeId) (h : History) : Except Error Unit :=
  if h.operations.length + 1 ≠ h.roots.length then
    .error (.integrity (.damaged t (.operationCount h.operations.length h.roots.length)))
  else
    match (h.operations.zip h.roots.tail).find? fun (o, r) => o.root != r.node with
    | some (_, r) => .error (.integrity (.damaged t (.wrongOperation r.generation)))
    | none => .ok ()

/-- The first leaf that the index does not have under its key. -/
def firstUnindexed? (index : Index) (leaves : List Terminal) : Option Terminal :=
  leaves.find? fun n => index.keys[n.key]? != some n.hash

/-- Checks that the index has the keys of the last generation and no others. -/
def auditIndex (s : State) (t : TreeId) (h : History) : Except Error Unit :=
  let trace : Trace :=
    match h.latest.node with
    | none => .done
    | some root => s.nodes.preorder root
  let leaves := (trace.visited.map Prod.snd).filterMap Node.terminal?
  match firstUnindexed? h.index leaves, trace.failure with
  | some n, _ => .error (.integrity (.damaged t (.keyNotIndexed n.key)))
  | none, some e => .error e
  | none, none =>
      if leaves.length ≠ h.index.keys.size then
        .error (.integrity (.damaged t (.indexSize h.index.keys.size leaves.length)))
      else .ok ()

/-- Checks trees one after the other. -/
def auditTrees (s : State) : Verified → List (TreeId × History) → Except Error Verified
  | verified, [] => .ok verified
  | verified, (t, h) :: trees => do
      let verified ← s.verifyRoots t 0 verified h.roots
      auditOperations t h
      s.auditIndex t h
      auditTrees s verified trees

/-- The first stored node that is not what its hash stands for, apart from those
that have been verified. -/
def firstStray? (s : State) (verified : Verified) : Option (Hash × Node) :=
  s.nodes.toList.find? fun (h, n) =>
    !verified.contains h && (n.hash != h || n.contentHash != h)

/-- Checks everything that is stored. -/
def audit (s : State) : Except Error Unit := do
  let verified ← s.auditTrees ∅ s.trees.toList
  match s.firstStray? verified with
  | some (h, n) => throw (.integrity (.strayNode h n.contentHash))
  | none => return ()

end State

/-- Checks everything that is stored and takes the tree to blame out of service. -/
def Store.audit : Action Unit := fun s =>
  match s.state.audit with
  | .ok () => (.ok (), s)
  | .error (.integrity v) =>
      match v.tree? with
      | some t => (.error (.integrity v), s.takeOutOfService t)
      | none => (.error (.integrity v), s)
  | .error e => (.error e, s)

end MerkleStore
