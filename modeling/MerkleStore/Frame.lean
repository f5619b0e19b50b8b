import MerkleStore.Codec
import MerkleStore.Error

/-!
# Frames

What one transaction writes to the journal: four bytes for the length of the
payload, thirty-two for its BLAKE3 digest, and the payload, which is the binary
form of a list of records, packed by a codec. The start of a byte string is a
whole frame, ends inside one, or holds a frame whose digest is not the one of
its payload.
-/

namespace MerkleStore.Frame

/-- The bytes in front of a payload. -/
def headerSize : Nat := 36

/-- The largest payload. -/
def payloadLimit : Nat := 256 * 1024 * 1024

/-- The frame around a payload. -/
def wrap (payload : Bytes) : Bytes :=
  littleEndian 4 payload.length ++ (Blake3.digest payload).toList ++ payload

/-- Writes records as one frame. -/
def encode (z : Codec) (records : List Record) : Except Error Bytes :=
  if records.length < Record.wordBound ∧ ∀ r ∈ records, r.Fits then
    let payload := z.encode (Record.writeList records)
    if payloadLimit < payload.length then
      .error (.invalidArgument (.frameTooLarge payload.length))
    else .ok (wrap payload)
  else .error (.encoding .numberTooLarge)

/-- What stands at the start of a byte string. -/
inductive Reading
  /-- Records, and the number of bytes their frame took. -/
  | whole (records : List Record) (size : Nat)
  /-- The byte string ends inside the frame. -/
  | truncated
  /-- A frame of this size, with a digest that is not the one of its payload. -/
  | wrongChecksum (size : Nat)
deriving DecidableEq

/-- The records in a payload. -/
def readPayload (z : Codec) (payload : Bytes) : Except Error (List Record) :=
  match z.decode payload with
  | .error message => .error (.file (.compression message))
  | .ok data =>
    match Record.readList data with
    | .error e => .error (.encoding e)
    | .ok records => .ok records

/-- Reads the frame at the start of a byte string. -/
def decode (z : Codec) (bs : Bytes) : Except Error Reading :=
  if bs.length < headerSize then .ok .truncated
  else
    let size := ofLittleEndian (bs.take 4)
    if payloadLimit < size then .error (.corruption (.frameSize size))
    else if bs.length < headerSize + size then .ok .truncated
    else
      let payload := (bs.drop headerSize).take size
      if (Blake3.digest payload).toList ≠ (bs.drop 4).take 32 then
        .ok (.wrongChecksum (headerSize + size))
      else
        match readPayload z payload with
        | .error e => .error e
        | .ok records => .ok (.whole records (headerSize + size))

/-- Whether a whole frame starts here, with a payload that is marked as one. -/
def isAtStart (z : Codec) (bs : Bytes) : Bool :=
  (bs.drop headerSize).take 4 == Codec.mark && !(bs.drop (headerSize + 4)).isEmpty &&
    match decode z bs with
    | .ok (.whole _ _) => true
    | _ => false

/-- Whether a whole frame starts anywhere in a byte string. -/
def isWithin (z : Codec) : Bytes → Bool
  | [] => false
  | b :: bs => isAtStart z (b :: bs) || isWithin z bs

end MerkleStore.Frame
