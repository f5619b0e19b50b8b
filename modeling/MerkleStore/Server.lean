import MerkleStore.Store.Read
import MerkleStore.Wire.Reply
import MerkleStore.Wire.Request

/-!
# The server

Answers questions about a store and never changes it. A conversation is answered
message by message in order; it ends when the client closes it or says nothing
for too long, and it is dropped at the first message that cannot be read or
answered.
-/

namespace MerkleStore.Server

open Wire

/-- The text that answers a request. -/
def reply (s : Store) : Request → Except Error String
  | .root t h =>
      match s.lastRootWith t (some h) with
      | .ok r => .ok (RootReply.ofRoot r).text
      | .error (.notFound _) | .error (.quarantined _) => .ok RootReply.unknown.text
      | .error e => .error e
  | .nodes t h => do
      if !s.hasTree t then throw (.notFound (.tree t))
      s.requireInService t
      let nodes ← (s.preorder h).nodes
      return (NodesReply.mk (nodes.map NodeItem.ofNode)).text
  | .operations t first last => do
      let operations ← s.operations t first last
      return OperationItem.listText (operations.map OperationItem.ofOperation)
  | .close => .error (.protocol .closeUnanswered)

/-- What arrives from a client. -/
inductive Incoming
  | text (text : String)
  | binary
  | ping
  | pong
  /-- The client closes the connection. -/
  | close
  /-- Nothing has arrived for as long as the server waits. -/
  | silence
deriving DecidableEq

/-- What the server does about it. -/
inductive Reaction
  | answer (text : String)
  | none
  /-- The server closes the connection. -/
  | close
  /-- The client has closed the connection. -/
  | leave
  /-- The connection is given up because of an error. -/
  | drop (error : Error)
deriving DecidableEq

/-- The conversation is over. -/
def Reaction.isLast : Reaction → Bool
  | answer _ | none => false
  | close | leave | drop _ => true

/-- The reaction to one message; longer texts than `limit` bytes are not accepted. -/
def react (s : Store) (limit : Option Nat) : Incoming → Reaction
  | .text text =>
      if limit.any (· < text.utf8ByteSize) then .drop (.connection .dropped)
      else
        match Request.parse text with
        | .error e => .drop e
        | .ok .close => .close
        | .ok r =>
          match Server.reply s r with
          | .ok text => .answer text
          | .error .outOfBounds => .drop (.protocol .handlerFailed)
          | .error e => .drop e
  | .binary => .drop (.protocol .binaryRequest)
  | .ping | .pong => .none
  | .close => .leave
  | .silence => .close

/-- The reactions to messages in their order, up to the last one of the conversation. -/
def converse (s : Store) (limit : Option Nat) : List Incoming → List Reaction
  | [] => []
  | m :: ms =>
      let r := react s limit m
      if r.isLast then [r] else r :: converse s limit ms

end MerkleStore.Server
