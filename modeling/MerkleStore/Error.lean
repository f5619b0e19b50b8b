import MerkleStore.Json.Error
import MerkleStore.Hash
import MerkleStore.Record.Binary

/-!
# Errors

Every way in which the store, its journal, its server or a replica can fail, as a
cause with the things it is about. The wording is in the functions `message`.
-/

namespace MerkleStore

/-- What was asked for and does not exist. -/
inductive Missing
  | tree (tree : TreeId)
  | node (node : Hash)
  | generation (generation : Nat) (tree : TreeId)
  | key (key : Bytes) (tree : TreeId)
  /-- The tree never had this root. -/
  | root (root : Hash) (tree : TreeId)
  /-- The server does not know this root. -/
  | remoteRoot (root : Hash) (tree : TreeId)
  /-- A reference was given for a tree without nodes. -/
  | referenceOfEmpty (node : Hash) (tree : TreeId)
  /-- The reference is not in the latest generation. -/
  | reference (node : Hash) (tree : TreeId)
  /-- The node is not in the latest generation. -/
  | member (node : Hash) (tree : TreeId)
deriving DecidableEq

def Missing.message : Missing → String
  | .tree t => "tree " ++ t.hex
  | .node h => "node " ++ h.hex
  | .generation g t => "generation " ++ toString g ++ " of tree " ++ t.hex
  | .key k t => "key " ++ Hex.encode k ++ " in tree " ++ t.hex
  | .root h t => "root " ++ h.hex ++ " of tree " ++ t.hex
  | .remoteRoot h t => "root " ++ h.hex ++ " on the server for tree " ++ t.hex
  | .referenceOfEmpty h t => "reference node " ++ h.hex ++ " (tree " ++ t.hex ++ " is empty)"
  | .reference h t => "reference node " ++ h.hex ++ " in the current root of tree " ++ t.hex
  | .member h t => "node " ++ h.hex ++ " in the current root of tree " ++ t.hex

/-- Why arguments do not go together. -/
inductive Misuse
  | referenceRequired
  | sideRequired
  | generationExpected (tree : TreeId) (expected given : Nat)
  | operationRefused (tree : TreeId) (generation : Nat)
  /-- The local tree has gone past what is asked from the server. -/
  | localAhead (tree : TreeId) (localGeneration requested : Nat)
  | frameTooLarge (size : Nat)
deriving DecidableEq

def Misuse.message : Misuse → String
  | .referenceRequired => "a reference node is required to insert into a non-empty tree"
  | .sideRequired => "a side is required alongside the reference node"
  | .generationExpected t expected given =>
      "tree " ++ t.hex ++ " expects generation " ++ toString expected ++ ", got " ++
        toString given
  | .operationRefused t g =>
      "tree " ++ t.hex ++ " cannot log an operation for generation " ++ toString g
  | .localAhead t localGeneration requested =>
      "local tree " ++ t.hex ++ " is at generation " ++ toString localGeneration ++
        ", past the requested generation " ++ toString requested
  | .frameTooLarge size => "frame too large: " ++ toString size ++ " bytes"

/-- What an audit finds wrong with a tree. -/
inductive Damage
  | misplacedGeneration (generation position : Nat)
  | missingNode (node : Hash)
  | wrongContent (node computed : Hash)
  | operationCount (operations generations : Nat)
  | wrongOperation (generation : Nat)
  | keyNotIndexed (key : Bytes)
  | indexSize (indexed counted : Nat)
deriving DecidableEq

def Damage.message : Damage → String
  | .misplacedGeneration g position =>
      "generation " ++ toString g ++ " stored at position " ++ toString position
  | .missingNode h => "node " ++ h.hex ++ " is referenced but missing"
  | .wrongContent h computed => "node stored as " ++ h.hex ++ " hashes to " ++ computed.hex
  | .operationCount operations generations =>
      toString operations ++ " operations logged for " ++ toString generations ++ " generations"
  | .wrongOperation g =>
      "operation for generation " ++ toString g ++ " disagrees with its root"
  | .keyNotIndexed k => "key " ++ Hex.encode k ++ " missing from the index"
  | .indexSize indexed counted =>
      "index holds " ++ toString indexed ++ " keys but the latest root has " ++ toString counted

/-- A root hash, or its absence, as it is shown. -/
def showRoot : Option Hash → String
  | some h => h.hex
  | none => "None"

/-- Content that is not what a hash stands for. -/
inductive Violation
  /-- An audit found a damaged tree. -/
  | damaged (tree : TreeId) (damage : Damage)
  /-- An audit found a damaged node that belongs to no tree. -/
  | strayNode (node computed : Hash)
  /-- A repeated operation led to another root than the one it recorded. -/
  | replay (tree : TreeId) (generation : Nat) (actual expected : Option Hash)
  /-- The server sent another subtree than the one that was asked for. -/
  | otherSubtree (tree : TreeId) (sent asked : Hash)
  /-- The local history is not the beginning of the server's. -/
  | diverged (tree : TreeId) (generation : Nat)
  /-- The operations of the server do not lead to the root it advertised. -/
  | otherRoot (tree : TreeId) (advertised : Hash)
deriving DecidableEq

/-- The tree a violation is blamed on. -/
def Violation.tree? : Violation → Option TreeId
  | .damaged t _ | .replay t _ _ _ | .otherSubtree t _ _ | .diverged t _ | .otherRoot t _ =>
      some t
  | .strayNode _ _ => none

def Violation.message : Violation → String
  | .damaged t damage => "tree " ++ t.hex ++ ": " ++ damage.message
  | .strayNode h computed =>
      "unreferenced node stored as " ++ h.hex ++ " hashes to " ++ computed.hex
  | .replay _ g actual expected =>
      "replaying generation " ++ toString g ++ " produced root " ++ showRoot actual ++
        " instead of " ++ showRoot expected
  | .otherSubtree _ sent asked => "server sent subtree " ++ sent.hex ++ " for " ++ asked.hex
  | .diverged _ g => "local generation " ++ toString g ++ " diverges from the server"
  | .otherRoot _ advertised =>
      "replicated root does not match advertised root " ++ advertised.hex

/-- Stored data that contradicts itself. -/
inductive Corruption
  | frameSize (size : Nat)
  | overrun (offset : Nat)
  | checksum (offset : Nat)
  | generationGap (generation : Nat) (tree : TreeId)
  | lateStart (tree : TreeId) (generation : Nat)
  | operationOfUnknownTree (tree : TreeId)
  | operationOutOfOrder (generation : Nat) (tree : TreeId)
  | statusOfUnknownGeneration (generation : Nat) (tree : TreeId)
  | indexOutsideRoot (tree : TreeId) (node : Hash)
  | notParent (node child : Hash)
  | keyAtInternal (node : Hash)
  | terminalAncestor (node : Hash)
deriving DecidableEq

def Corruption.message : Corruption → String
  | .frameSize size => "frame claims " ++ toString size ++ " payload bytes"
  | .overrun offset =>
      "frame at offset " ++ toString offset ++ " overruns the frames that follow it"
  | .checksum offset => "checksum mismatch in frame at offset " ++ toString offset
  | .generationGap g t => "non-contiguous generation " ++ toString g ++ " for tree " ++ t.hex
  | .lateStart t g => "tree " ++ t.hex ++ " starts at generation " ++ toString g
  | .operationOfUnknownTree t => "operation for unknown tree " ++ t.hex
  | .operationOutOfOrder g t =>
      "operation for generation " ++ toString g ++ " out of order in tree " ++ t.hex
  | .statusOfUnknownGeneration g t =>
      "status for unknown generation " ++ toString g ++ " of tree " ++ t.hex
  | .indexOutsideRoot t h =>
      "index of tree " ++ t.hex ++ " points at node " ++ h.hex ++ " outside the current root"
  | .notParent h child => "node " ++ h.hex ++ " is not the parent of " ++ child.hex
  | .keyAtInternal h => "key index points at internal node " ++ h.hex
  | .terminalAncestor h => "ancestor " ++ h.hex ++ " is a terminal node"

/-- A message that breaks the rules of the exchange. -/
inductive Misconduct
  | malformedRequest (error : Json.Error)
  | closeUnanswered
  | binaryRequest
  | binaryAnswer
  | closedEarly (request : String)
  | operationCount (asked sent : Nat)
  | nodeFlag
  | operationFlag
  | statusCode (code : Nat)
  | handlerFailed
deriving DecidableEq

def Misconduct.message : Misconduct → String
  | .malformedRequest e => "malformed request: " ++ e.message
  | .closeUnanswered => "close has no answer"
  | .binaryRequest => "binary frames are not supported"
  | .binaryAnswer => "unexpected binary frame"
  | .closedEarly request => "server closed the connection while answering " ++ request
  | .operationCount asked sent =>
      "asked for " ++ toString asked ++ " operations, server sent " ++ toString sent
  | .nodeFlag => "node entry has a mismatched is_terminal flag"
  | .operationFlag => "operation entry has a mismatched is_insert flag"
  | .statusCode code => "unknown root status code " ++ toString code
  | .handlerFailed => "request handler failed"

/-- A file that cannot be used. -/
inductive FileError
  | notFound
  | alreadyExists
  | isDirectory
  | notDirectory
  | nameTooLong
  /-- A path holds the character that ends texts for the operating system. -/
  | nulInPath
  | notText
  /-- What was packed cannot be unpacked. -/
  | compression (message : String)
  | other (message : String)
deriving DecidableEq

def FileError.message : FileError → String
  | .notFound => "No such file or directory (os error 2)"
  | .alreadyExists => "File exists (os error 17)"
  | .isDirectory => "Is a directory (os error 21)"
  | .notDirectory => "Not a directory (os error 20)"
  | .nameTooLong => "File name too long (os error 36)"
  | .nulInPath => "file name contained an unexpected NUL byte"
  | .notText => "stream did not contain valid UTF-8"
  | .compression message => message
  | .other message => message

/-- A setting that cannot be used. -/
inductive Misconfiguration
  | unreadable (path : String) (error : FileError)
  | unparsable (path : String) (error : Json.Error)
  | port (text : String)
  | idleTimeout (text : String)
deriving DecidableEq

def Misconfiguration.message : Misconfiguration → String
  | .unreadable path e => "Failed to read " ++ path ++ ": " ++ e.message
  | .unparsable path e => "Failed to parse " ++ path ++ ": " ++ e.message
  | .port text => "ARBOR_PORT is not a port: " ++ text
  | .idleTimeout text => "ARBOR_IDLE_TIMEOUT_SECS is not a number: " ++ text

/-- Why a connection cannot be used. -/
inductive ConnectionError
  | unreachable
  | dropped
deriving DecidableEq

def ConnectionError.message : ConnectionError → String
  | .unreachable => "no connection"
  | .dropped => "connection dropped"

/-- Why something failed. -/
inductive Error
  | file (error : FileError)
  | encoding (error : Record.BinaryError)
  | json (error : Json.Error)
  | notFound (what : Missing)
  | treeExists (tree : TreeId)
  | duplicateKey (key : Bytes)
  | invalidRange (first last latest : Nat)
  | invalidArgument (misuse : Misuse)
  | integrity (violation : Violation)
  | quarantined (tree : TreeId)
  | invalidHash (error : Hex.Error)
  | corruption (what : Corruption)
  | invalidFile
  | versionMismatch (expected found : Nat)
  | protocol (misconduct : Misconduct)
  | connection (error : ConnectionError)
  | config (error : Misconfiguration)
  /-- Operations were asked for that a shorter history does not hold; the program
  that asks goes no further. -/
  | outOfBounds
  /-- A walk came upon a node below itself and would never end. -/
  | endless
deriving DecidableEq

namespace Error

def message : Error → String
  | file e => "IO error: " ++ e.message
  | encoding e => "Serialization error: " ++ e.message
  | json e => "JSON error: " ++ e.message
  | notFound what => "Not found: " ++ what.message
  | treeExists t => "Tree already exists: " ++ t.hex
  | duplicateKey k => "Key already present: " ++ Hex.encode k
  | invalidRange first last latest =>
      "Invalid generation range " ++ toString first ++ ".." ++ toString last ++
        " (latest generation is " ++ toString latest ++ ")"
  | invalidArgument m => "Invalid argument: " ++ m.message
  | integrity v => "Integrity check failed: " ++ v.message
  | quarantined t => "Tree " ++ t.hex ++ " is quarantined after a failed integrity check"
  | invalidHash e => "Invalid hash: " ++ e.message
  | corruption c => "Corruption detected: " ++ c.message
  | invalidFile => "Invalid database file: Invalid magic bytes"
  | versionMismatch expected found =>
      "Version mismatch: expected " ++ toString expected ++ ", found " ++ toString found
  | protocol m => "Protocol error: " ++ m.message
  | connection e => "WebSocket error: " ++ e.message
  | config e => "Config error: " ++ e.message
  | outOfBounds => "operations out of bounds"
  | endless => "endless walk"

/-- What an error rests on, where that has a message of its own. -/
def reason? : Error → Option String
  | file e => some e.message
  | encoding e => some e.message
  | json e => some e.message
  | connection e => some e.message
  | _ => none

/-- The thing asked for does not exist. -/
def isAbsence : Error → Bool
  | notFound _ => true
  | _ => false

end Error

end MerkleStore
