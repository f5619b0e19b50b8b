import Std.Data.ExtTreeSet
import MerkleStore.Journal
import MerkleStore.Transaction

/-!
# The store

A store is a state, the journal it is written to, unless it lives in memory only,
and the trees that an audit took out of service. An `Action` changes a store; it
may fail, and then says what the store is like afterwards.
-/

namespace MerkleStore

/-- A store of trees. -/
structure Store where
  state : State
  /-- The file behind the store. -/
  journal : Option Journal
  /-- Trees that are no longer served. -/
  quarantined : Std.ExtTreeSet TreeId

/-- Something that can be done with a store. -/
def Action (α : Type) : Type := Store → Except Error α × Store

namespace Action

variable {α β : Type}

/-- Does nothing and succeeds. -/
def done (a : α) : Action α := fun s => (.ok a, s)

/-- Goes on with what depends on the result, unless the first part failed. -/
def andThen (x : Action α) (next : α → Action β) : Action β := fun s =>
  match x s with
  | (.ok a, s) => next a s
  | (.error e, s) => (.error e, s)

instance : Monad Action where
  pure := done
  bind := andThen

/-- Fails and leaves the store as it is. -/
def fail (e : Error) : Action α := fun s => (.error e, s)

/-- Looks at the store and leaves it as it is. -/
def read (f : Store → Except Error α) : Action α := fun s => (f s, s)

end Action

namespace Store

/-- A store that lives in memory. -/
def volatile : Store := ⟨.empty, none, ∅⟩

/-- A store with a new file. -/
def create (z : Codec) : Store := ⟨.empty, some (.create z), ∅⟩

/-- The store in a file. -/
def ofFile (z : Codec) (bytes : Bytes) : Except Error Store := do
  let (state, journal) ← Journal.recover z bytes
  return ⟨state, some journal, ∅⟩

/-- Whether a tree has been taken out of service. -/
def isOutOfService (s : Store) (t : TreeId) : Bool := s.quarantined.contains t

/-- Fails for a tree that has been taken out of service. -/
def requireInService (s : Store) (t : TreeId) : Except Error Unit :=
  if s.isOutOfService t then .error (.quarantined t) else .ok ()

/-- The history of a tree that exists and is served. -/
def servedTree (s : Store) (t : TreeId) : Except Error History := do
  s.requireInService t
  s.state.tree t

/-- Takes a tree out of service. -/
def takeOutOfService (s : Store) (t : TreeId) : Store :=
  { s with quarantined := s.quarantined.insert t }

/-- Writes records into the file behind a store. -/
def record (s : Store) (records : List Record) : Except Error (Option Journal) :=
  match s.journal with
  | none => .ok none
  | some f =>
      match Frame.encode f.codec records with
      | .ok frame => .ok (some (f.write frame))
      | .error e => .error e

/-- Makes a transaction durable and visible as a whole, after it has been checked. -/
def commit (tx : Transaction) : Action Unit := fun s =>
  if tx.isVoid then (.ok (), s)
  else
    match s.state.checkBatch tx.records with
    | .error e => (.error e, s)
    | .ok () =>
      match s.record tx.records with
      | .error e => (.error e, s)
      | .ok journal =>
        match s.state.applyAll tx.records with
        | .error e => (.error e, { s with journal })
        | .ok state =>
            let state := tx.updates.foldl (fun state u => state.updateIndex u.1 u.2) state
            (.ok (), { s with state, journal })

end Store

end MerkleStore
