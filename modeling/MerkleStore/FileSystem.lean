import MerkleStore.Error

/-!
# File systems

What the program does with files, apart from how it is done: on a disk, or in a
tree of files in memory.
-/

namespace MerkleStore

/-- The ways to do things with files. -/
structure FileSystem (m : Type → Type) where
  /-- Whether a path leads to something. -/
  isPresent : String → m Bool
  /-- What is in the file at a path. -/
  read : String → m (Except FileError Bytes)
  /-- Makes the file at a path, or replaces what is in it. -/
  write : String → Bytes → m (Except FileError Unit)
  /-- Makes the directories above a path. -/
  makeAbove : String → m (Except FileError Unit)

end MerkleStore
