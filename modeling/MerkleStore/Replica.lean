import MerkleStore.Server
import MerkleStore.Store.Replay

/-!
# Replicas

A replica asks a server for the operations of a tree and makes them again on its
own copy. The server is not trusted: every generation is computed locally and
its root compared with the one the server gave for it, and the local history
must be the beginning of the server's.

A server is anything that answers each request by some messages, which may depend
on all requests before it (`Peer`).
-/

namespace MerkleStore

/-- What arrives from a server. -/
inductive Delivery
  | text (text : String)
  | binary
  | ping
  | pong
  /-- The server closes the connection. -/
  | close
  /-- The connection breaks. -/
  | broken
deriving DecidableEq

/-- What a server sends after the last of the requests it has received. -/
abbrev Peer := List String → List Delivery

/-- A server with this store that keeps to the rules. -/
def Peer.honest (s : Store) : Peer := fun requests =>
  match requests.getLast? with
  | none => []
  | some text =>
    match Server.react s none (.text text) with
    | .answer text => [.text text]
    | .none => []
    | .close | .leave => [.close]
    | .drop _ => [.broken]

/-- A local store in conversation with a server. -/
structure Session where
  store : Store
  /-- The requests sent so far, in order. -/
  sent : List String

/-- Something a replica does with its store and the server. -/
def Exchange (α : Type) : Type := Peer → Session → Except Error α × Session

namespace Exchange

variable {α β : Type}

def done (a : α) : Exchange α := fun _ s => (.ok a, s)

/-- Goes on with what depends on the result, unless the first part failed. -/
def andThen (x : Exchange α) (next : α → Exchange β) : Exchange β := fun peer s =>
  match x peer s with
  | (.ok a, s) => next a peer s
  | (.error e, s) => (.error e, s)

instance : Monad Exchange where
  pure := done
  bind := andThen

/-- Fails and leaves everything as it is. -/
def fail (e : Error) : Exchange α := fun _ s => (.error e, s)

/-- A result that may be an error. -/
def ofExcept : Except Error α → Exchange α
  | .ok a => done a
  | .error e => fail e

/-- Looks at the local store. -/
def look (f : Store → α) : Exchange α := fun _ s => (.ok (f s.store), s)

/-- Does something with the local store. -/
def locally (x : Action α) : Exchange α := fun _ s =>
  let (result, store) := x s.store
  (result, { s with store })

end Exchange

namespace Replica

open Wire

/-- The text among the messages that answer a request of this kind. -/
def awaitText (kind : String) : List Delivery → Except Error String
  | [] => .error (.protocol (.closedEarly kind))
  | .text text :: _ => .ok text
  | .ping :: ds | .pong :: ds => awaitText kind ds
  | .binary :: _ => .error (.protocol .binaryAnswer)
  | .close :: _ => .error (.protocol (.closedEarly kind))
  | .broken :: _ => .error (.connection .dropped)

/-- Sends a request and waits for the text that answers it. -/
def ask (r : Request) : Exchange String := fun peer s =>
  let sent := s.sent ++ [r.text]
  (awaitText r.kind (peer sent), { s with sent })

/-! ### Answers as the client reads them -/

/-- The root in an answer, if there is one. -/
def readRoot (text : String) : Except Error (Option Root) := do
  return (← RootReply.parse text).toRoot?

/-- The nodes in an answer, the first of which must be the one asked for. -/
def readNodes (t : TreeId) (hash : Hash) (text : String) : Except Error (List Node) := do
  let nodes ← (← NodesReply.parse text).entries.mapM NodeItem.toNode
  match nodes with
  | n :: _ =>
      if n.hash ≠ hash then throw (.integrity (.otherSubtree t n.hash hash))
      return nodes
  | [] => return []

/-- The operations in an answer. -/
def readOperations (text : String) : Except Error (List Operation) := do
  (← OperationItem.parseList text).mapM OperationItem.toOperation

/-- The last generation the server has with this root. -/
def fetchRoot (t : TreeId) (hash : Hash) : Exchange (Option Root) := do
  .ofExcept (readRoot (← ask (.root t hash)))

/-- The subtree under a node, left before right. -/
def fetchNodes (t : TreeId) (hash : Hash) : Exchange (List Node) := do
  .ofExcept (readNodes t hash (← ask (.nodes t hash)))

/-- The operations that made the generations after `first` up to `last`. -/
def fetchOperations (t : TreeId) (first last : Nat) : Exchange (List Operation) := do
  .ofExcept (readOperations (← ask (.operations t first last)))

/-- Says goodbye. -/
def close : Exchange Unit := fun _ s => (.ok (), { s with sent := s.sent ++ [Request.close.text] })

/-! ### Replication -/

/-- What a replication did. -/
structure Report where
  tree : TreeId
  /-- The local generation before. -/
  first : Nat
  /-- The local generation afterwards. -/
  last : Nat
  root : Hash
  /-- The generations that were confirmed because the server reported them so. -/
  confirmed : List Nat
deriving DecidableEq

/-- Compares local roots with the operations the server has for them, and gives the
pending generations among them that the server reports as confirmed. -/
def compareHistory (t : TreeId) : List Root → List Operation → Except Error (List Nat)
  | r :: rs, o :: os => do
      if o.root ≠ r.node then throw (.integrity (.diverged t r.generation))
      let later ← compareHistory t rs os
      return if r.status = .pending ∧ o.status = .committed then r.generation :: later else later
  | _, _ => .ok []

/-- Makes sure that the local history up to `latest` is the beginning of the
server's, as far as it is pending, and gives the generations to confirm. -/
def catchUp (t : TreeId) (latest : Nat) : Exchange (List Nat) := do
  let roots ← .locally (.read (·.rootsBetween t 1 (latest + 1)))
  let firstPending :=
    match roots.find? (·.status == .pending) with
    | some r => r.generation
    | none => latest
  let known ← fetchOperations t (firstPending - 1) latest
  let roots := roots.drop (firstPending - 1)
  if known.length ≠ roots.length then
    .fail (.protocol (.operationCount roots.length known.length))
  .ofExcept (compareHistory t roots known)

/-- The generations after `first` whose operations are reported as confirmed. -/
def confirmedAfter (first : Nat) (operations : List Operation) : List Nat :=
  (operations.zipIdx (first + 1)).filterMap fun (o, g) =>
    if o.status = .committed then some g else none

/-- Confirms generations in order. -/
def confirmAll (t : TreeId) : List Nat → Action Unit
  | [] => return ()
  | g :: gs => do
      Store.confirm t g
      confirmAll t gs

/-- Brings the local copy of a tree up to a root the server has. The tree is created
if it does not exist. -/
def replicate (t : TreeId) (root : Hash) : Exchange Report := do
  let some remote ← fetchRoot t root | .fail (.notFound (.remoteRoot root t))
  unless ← .look (·.hasTree t) do .locally (Store.addTree t)
  let first := (← .locally (.read (·.latestRoot t))).generation
  if remote.generation < first then
    .fail (.invalidArgument (.localAhead t first remote.generation))
  let known ← if 0 < first then catchUp t first else pure []
  let operations ← fetchOperations t first remote.generation
  let reached ← .locally (Store.replay t operations)
  if reached ≠ some root then .fail (.integrity (.otherRoot t root))
  let confirmed := known ++ confirmedAfter first operations
  .locally (confirmAll t confirmed)
  return ⟨t, first, remote.generation, root, confirmed⟩

end Replica

end MerkleStore
