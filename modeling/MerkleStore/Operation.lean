import MerkleStore.Node
import MerkleStore.Root

/-!
# Operations

The change that made a generation out of the one before it. An operation
carries all that is needed to make it again elsewhere, together with the hash
at the root afterwards, against which a repetition is checked.
-/

namespace MerkleStore

/-- A key with its value was put beside a node of the tree; into an empty tree
without any reference. -/
structure Insertion where
  root : Hash
  key : Bytes
  value : Bytes
  reference : Option Hash
  side : Option Side
  status : Status
deriving DecidableEq

/-- A key was taken out; `root` is absent when the tree became empty. -/
structure Deletion where
  root : Option Hash
  key : Bytes
  status : Status
deriving DecidableEq

/-- What happened between two generations. -/
inductive Operation
  | insertion (data : Insertion)
  | deletion (data : Deletion)
deriving DecidableEq

namespace Operation

def key : Operation → Bytes
  | insertion d => d.key
  | deletion d => d.key

/-- The hash at the root after the operation. -/
def root : Operation → Option Hash
  | insertion d => some d.root
  | deletion d => d.root

/-- The status of the generation the operation made. -/
def status : Operation → Status
  | insertion d => d.status
  | deletion d => d.status

def isInsertion : Operation → Bool
  | insertion _ => true
  | deletion _ => false

/-- The operation with another status. -/
def withStatus (s : Status) : Operation → Operation
  | insertion d => insertion { d with status := s }
  | deletion d => deletion { d with status := s }

end Operation

end MerkleStore
