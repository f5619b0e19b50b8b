import MerkleStore.Store.Read

/-!
# Differences between two roots

Which keys were added, removed or got another value between two roots of a tree.
Only nodes under one of the two roots are looked at a second time: subtrees that
occur under both are left out.
-/

namespace MerkleStore

/-- What happened to one key. -/
inductive Change
  | added (node : Terminal)
  | removed (node : Terminal)
  | modified (old new : Terminal)
deriving DecidableEq

/-- The key a change is about. -/
def Change.key : Change → Bytes
  | added n => n.key
  | removed n => n.key
  | modified _ n => n.key

def Change.isAdded : Change → Bool
  | added _ => true
  | _ => false

def Change.isRemoved : Change → Bool
  | removed _ => true
  | _ => false

def Change.isModified : Change → Bool
  | modified _ _ => true
  | _ => false

namespace NodeMap

/-- The hashes of everything under a root. -/
def hashesUnder (nodes : NodeMap) : Option Hash → Except Error (Std.ExtTreeSet Hash)
  | none => .ok ∅
  | some h =>
      let t := nodes.walk .right (fun _ => false) h
      match t.failure with
      | some e => .error e
      | none => .ok (.ofList (t.visited.map Prod.fst))

/-- The leaves under a root, without subtrees that are in `shared`. -/
def terminalsOutside (nodes : NodeMap) (shared : Std.ExtTreeSet Hash) :
    Option Hash → Except Error (List Terminal)
  | none => .ok []
  | some h => do
      return (← (nodes.walk .left (fun h => shared.contains h) h).nodes).filterMap Node.terminal?

end NodeMap

/-- Sets new leaves against old ones with the same keys: what became of the new
ones, and the old ones that are left. -/
def matchTerminals : Std.ExtTreeMap Bytes Terminal → List Terminal →
    List Change × Std.ExtTreeMap Bytes Terminal
  | old, [] => ([], old)
  | old, n :: ns =>
      match old[n.key]? with
      | some o =>
          let (changes, rest) := matchTerminals (old.erase n.key) ns
          (.modified o n :: changes, rest)
      | none =>
          let (changes, rest) := matchTerminals old ns
          (.added n :: changes, rest)

/-- The changes from old leaves to new ones, in the order of their keys. -/
def changesBetween (old new : List Terminal) : List Change :=
  let (changes, rest) := matchTerminals (.ofList (old.map fun n => (n.key, n))) new
  (changes ++ rest.values.map Change.removed).mergeSort fun a b => (compare a.key b.key).isLE

/-- The changes from one root of a tree to another; no root stands for the empty
tree. -/
def Store.diff (s : Store) (t : TreeId) (first last : Option Hash) :
    Except Error (List Change) := do
  s.requireInService t
  if let some h := first then s.requireRoot t h
  if let some h := last then s.requireRoot t h
  if first = last then return []
  let nodes := s.state.nodes
  let firstHashes ← nodes.hashesUnder first
  let lastHashes ← nodes.hashesUnder last
  let old ← nodes.terminalsOutside lastHashes first
  let new ← nodes.terminalsOutside firstHashes last
  return changesBetween old new

end MerkleStore
