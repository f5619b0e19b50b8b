import MerkleStore.Record

/-!
# The binary form of records

Numbers take eight bytes and alternatives a four-byte index, least significant
byte first; an optional value follows a one-byte tag, a byte string and a list
follow their length, and the thirty-two bytes of a hash or tree id stand bare.
Bytes after the last record are passed over.
-/

namespace MerkleStore.Record

/-! ### Writing -/

/-- The index of an alternative. -/
def writeIndex (n : Nat) : Bytes := littleEndian 4 n

def writeNumber (n : Nat) : Bytes := littleEndian 8 n

def writeBytes (bs : Bytes) : Bytes := writeNumber bs.length ++ bs

def writeHash (h : Hash) : Bytes := h.bytes.toList

def writeTreeId (t : TreeId) : Bytes := t.bytes.toList

def writeOption {α : Type} (write : α → Bytes) : Option α → Bytes
  | none => [0]
  | some a => 1 :: write a

def writeStatus : Status → Bytes
  | .pending => writeIndex 0
  | .committed => writeIndex 1

def writeSide : Side → Bytes
  | .left => writeIndex 0
  | .right => writeIndex 1

def writeNode : Node → Bytes
  | .terminal n => writeIndex 0 ++ writeHash n.hash ++ writeBytes n.key ++ writeBytes n.value
  | .internal n => writeIndex 1 ++ writeHash n.hash ++ writeHash n.left ++ writeHash n.right

def writeRoot (r : Root) : Bytes :=
  writeTreeId r.tree ++ writeNumber r.generation ++ writeOption writeHash r.node ++
    writeStatus r.status

def writeOperation : Operation → Bytes
  | .insertion d =>
      writeIndex 0 ++ writeHash d.root ++ writeBytes d.key ++ writeBytes d.value ++
        writeOption writeHash d.reference ++ writeOption writeSide d.side ++ writeStatus d.status
  | .deletion d =>
      writeIndex 1 ++ writeOption writeHash d.root ++ writeBytes d.key ++ writeStatus d.status

/-- A record in binary form. -/
def write : Record → Bytes
  | .node n => writeIndex 0 ++ writeNode n
  | .root r => writeIndex 1 ++ writeRoot r
  | .operation t g o => writeIndex 2 ++ writeTreeId t ++ writeNumber g ++ writeOperation o
  | .status t g s => writeIndex 3 ++ writeTreeId t ++ writeNumber g ++ writeStatus s

/-- A list of records in binary form. -/
def writeList (rs : List Record) : Bytes := writeNumber rs.length ++ rs.flatMap write

/-- Numbers that eight bytes can hold. -/
def wordBound : Nat := Nat.pow 2 64

/-- The number of bytes, and any generation, can be written in eight bytes. -/
def Fits : Record → Prop
  | .node (.terminal n) => n.key.length < wordBound ∧ n.value.length < wordBound
  | .node (.internal _) => True
  | .root r => r.generation < wordBound
  | .operation _ g (.insertion d) =>
      g < wordBound ∧ d.key.length < wordBound ∧ d.value.length < wordBound
  | .operation _ g (.deletion d) => g < wordBound ∧ d.key.length < wordBound
  | .status _ g _ => g < wordBound

instance : DecidablePred Fits := fun r => by
  cases r with
  | node n => cases n <;> simp only [Fits] <;> infer_instance
  | root r => simp only [Fits]; infer_instance
  | operation t g o => cases o <;> simp only [Fits] <;> infer_instance
  | status t g s => simp only [Fits]; infer_instance

/-! ### Reading -/

/-- Why bytes are no records. -/
inductive BinaryError
  | endOfInput
  | unknownIndex (index count : Nat)
  | unknownTag (tag : Nat)
  /-- A number does not fit in eight bytes. -/
  | numberTooLarge
deriving DecidableEq

def BinaryError.message : BinaryError → String
  | .endOfInput => "io error: unexpected end of file"
  | .unknownIndex index count =>
      "invalid value: integer `" ++ toString index ++ "`, expected variant index 0 <= i < " ++
        toString count
  | .unknownTag tag => "tag for enum is not valid, found " ++ toString tag
  | .numberTooLarge => "number too large"

/-- Takes a value off the front of a byte string. -/
abbrev Reader (α : Type) := Bytes → Except BinaryError (α × Bytes)

namespace Reader

/-- The next `n` bytes. -/
def take (n : Nat) : Reader Bytes := fun bs =>
  if n ≤ bs.length then .ok (bs.take n, bs.drop n) else .error .endOfInput

/-- Reads a value and goes on with what depends on it. -/
def andThen {α β : Type} (r : Reader α) (next : α → Reader β) : Reader β := fun bs =>
  match r bs with
  | .ok (a, rest) => next a rest
  | .error e => .error e

/-- A value that takes no bytes. -/
def done {α : Type} (a : α) : Reader α := fun bs => .ok (a, bs)

instance : Monad Reader where
  pure := done
  bind := andThen

/-- A reader that refuses whatever follows. -/
def refuse {α : Type} (e : BinaryError) : Reader α := fun _ => .error e

/-- A number of four or eight bytes. -/
def number (width : Nat) : Reader Nat := do
  return ofLittleEndian (← take width)

def bytes : Reader Bytes := do
  take (← number 8)

def bytes32 : Reader Bytes32 := fun bs =>
  match bs.take 32 |> Bytes32.ofList? with
  | some b => .ok (b, bs.drop 32)
  | none => .error .endOfInput

def hash : Reader Hash := do
  return ⟨← bytes32⟩

def treeId : Reader TreeId := do
  return ⟨← bytes32⟩

def option {α : Type} (r : Reader α) : Reader (Option α) := do
  match ← number 1 with
  | 0 => return none
  | 1 => return some (← r)
  | tag => refuse (.unknownTag tag)

def status : Reader Status := do
  match ← number 4 with
  | 0 => return .pending
  | 1 => return .committed
  | index => refuse (.unknownIndex index 2)

def side : Reader Side := do
  match ← number 4 with
  | 0 => return .left
  | 1 => return .right
  | index => refuse (.unknownIndex index 2)

def node : Reader Node := do
  match ← number 4 with
  | 0 => return .terminal ⟨← hash, ← bytes, ← bytes⟩
  | 1 => return .internal ⟨← hash, ← hash, ← hash⟩
  | index => refuse (.unknownIndex index 2)

def root : Reader Root := do
  return ⟨← treeId, ← number 8, ← option hash, ← status⟩

def operation : Reader Operation := do
  match ← number 4 with
  | 0 => return .insertion ⟨← hash, ← bytes, ← bytes, ← option hash, ← option side, ← status⟩
  | 1 => return .deletion ⟨← option hash, ← bytes, ← status⟩
  | index => refuse (.unknownIndex index 2)

def record : Reader Record := do
  match ← number 4 with
  | 0 => return .node (← node)
  | 1 => return .root (← root)
  | 2 => return .operation (← treeId) (← number 8) (← operation)
  | 3 => return .status (← treeId) (← number 8) (← status)
  | index => refuse (.unknownIndex index 4)

/-- That many values, one after the other. -/
def many {α : Type} (r : Reader α) : Nat → Reader (List α)
  | 0 => return []
  | n + 1 => do
      let a ← r
      let rest ← many r n
      return a :: rest

/-- A list of records behind its length. -/
def records : Reader (List Record) := do
  many record (← number 8)

end Reader

/-- The records at the front of a byte string. -/
def readList (bs : Bytes) : Except BinaryError (List Record) :=
  match Reader.records bs with
  | .ok (rs, _) => .ok rs
  | .error e => .error e

end MerkleStore.Record
