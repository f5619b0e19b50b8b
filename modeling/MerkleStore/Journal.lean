import MerkleStore.Frame
import MerkleStore.State.Reindex

/-!
# The journal

A file starts with sixteen bytes: a magic number, the version of the format and
four bytes for later use. Frames follow, one for every transaction. `recover`
reads a file from its first frame to its last. A frame that was only partly
written when a process died is left out, and the file is cut back to the frames
before it; any other damage is an error.
-/

namespace MerkleStore

/-- A file that is written at its end, with payloads of one codec. -/
structure Journal where
  codec : Codec
  bytes : Bytes
  /-- Where the next frame goes. -/
  offset : Nat

namespace Journal

/-- The bytes every file starts with: "ARBOR_DB". -/
def magic : Bytes := [0x41, 0x52, 0x42, 0x4f, 0x52, 0x5f, 0x44, 0x42]

/-- The version of the format. -/
def version : Nat := 1

/-- The size of what stands before the first frame. -/
def headerSize : Nat := 16

/-- What stands before the first frame. -/
def header : Bytes := magic ++ littleEndian 4 version ++ [0, 0, 0, 0]

/-- A file without frames. -/
def create (z : Codec) : Journal := ⟨z, header, headerSize⟩

/-- The bytes with others written over them from an offset on; a gap before the
offset is filled with zeros. -/
def overwrite (bytes : Bytes) (offset : Nat) (data : Bytes) : Bytes :=
  bytes.take offset ++ List.replicate (offset - bytes.length) 0 ++ data ++
    bytes.drop (offset + data.length)

/-- The file after one more frame. -/
def write (f : Journal) (frame : Bytes) : Journal :=
  ⟨f.codec, overwrite f.bytes f.offset frame, f.offset + frame.length⟩

/-- Applies the frames at the front of `rest`, which starts at `offset`, and gives
the offset behind the last whole one. `fuel` bounds their number. -/
def replayFrames (z : Codec) : Nat → Nat → State → Bytes → Except Error (State × Nat)
  | 0, offset, s, _ => .ok (s, offset)
  | fuel + 1, offset, s, rest =>
      if rest.isEmpty then .ok (s, offset)
      else
        match Frame.decode z rest with
        | .error e => .error e
        | .ok (.whole records size) =>
            match s.applyAll records with
            | .error e => .error e
            | .ok s => replayFrames z fuel (offset + size) s (rest.drop size)
        | .ok .truncated =>
            if Frame.isWithin z rest.tail then .error (.corruption (.overrun offset))
            else .ok (s, offset)
        | .ok (.wrongChecksum size) =>
            if size < rest.length then .error (.corruption (.checksum offset))
            else .ok (s, offset)

/-- Whether the bytes start as a file of this version does. -/
def checkHeader (bytes : Bytes) : Except Error Unit :=
  if bytes.length < headerSize ∨ bytes.take 8 ≠ magic then .error .invalidFile
  else
    let found := ofLittleEndian ((bytes.drop 8).take 4)
    if found ≠ version then .error (.versionMismatch version found) else .ok ()

/-- The state a file holds, and the file without a frame that was cut short. -/
def recover (z : Codec) (bytes : Bytes) : Except Error (State × Journal) := do
  checkHeader bytes
  let (s, offset) ←
    replayFrames z bytes.length headerSize .empty (bytes.drop headerSize)
  let s ← s.reindex
  return (s, ⟨z, bytes.take offset, offset⟩)

end Journal

end MerkleStore
