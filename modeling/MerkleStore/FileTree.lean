import MerkleStore.FilePath
import MerkleStore.FileSystem

/-!
# Trees of files

Directories and files in memory. A path is followed name by name, from the root or
from the present directory, and every name but the last one has to lead to a
directory. `system` is the file system a tree is.
-/

namespace MerkleStore

/-- A place in a tree: the names on the way to it from the root. -/
abbrev Location := List String

/-- What is at a place. -/
inductive Entry
  | directory
  | file (content : Bytes)
deriving DecidableEq

/-- Directories and files. -/
structure FileTree where
  entries : List (Location × Entry)
  /-- The present directory. -/
  here : Location
deriving DecidableEq

namespace FileTree

/-- A tree with nothing but the present directory and those above it. -/
def empty (here : Location) : FileTree :=
  ⟨(List.range here.length).map fun n => (here.take (n + 1), .directory), here⟩

/-- What is at a place; the root is a directory. -/
def entry? (t : FileTree) (p : Location) : Option Entry :=
  if p = [] then some .directory else t.entries.lookup p

/-- Puts something at a place. -/
def put (t : FileTree) (p : Location) (e : Entry) : FileTree :=
  { t with entries := (p, e) :: t.entries.filter (·.1 ≠ p) }

/-! ### Following a path -/

/-- The most bytes a name may have. -/
def nameLimit : Nat := 255

/-- The most bytes a path may have. -/
def pathLimit : Nat := 4095

/-- The names between the slashes of a path. -/
def names (path : String) : Except FileError (List String) := do
  if path.contains '\x00' then throw .nulInPath
  if path = "" then throw .notFound
  if pathLimit < path.utf8ByteSize then throw .nameTooLong
  return path.splitOn "/"

/-- Where a path starts. -/
def start (t : FileTree) (path : String) : Location :=
  if path.startsWith "/" then [] else t.here

/-- Fails unless a directory is at a place. -/
def requireDirectory (t : FileTree) (p : Location) : Except FileError Unit :=
  match t.entry? p with
  | some .directory => .ok ()
  | some (.file _) => .error .notDirectory
  | none => .error .notFound

/-- The place that a name in a directory stands for. -/
def step (t : FileTree) (p : Location) (name : String) : Except FileError Location := do
  t.requireDirectory p
  if name = "" ∨ name = "." then return p
  if name = ".." then return p.dropLast
  if nameLimit < name.utf8ByteSize then throw .nameTooLong
  return p ++ [name]

/-- The place a path leads to, and what is there. -/
def locate (t : FileTree) (path : String) : Except FileError (Location × Entry) := do
  let p ← (← names path).foldlM t.step (t.start path)
  match t.entry? p with
  | some e => return (p, e)
  | none => throw .notFound

/-- The directory in which a path makes something, and the name it gives it. A path
that ends in the root, in one dot or in two has no such name. -/
def destination (t : FileTree) (path : String) : Except FileError (Location × Option String) := do
  let last := (← names path).reverse.dropWhile (· = "")
  let p ← last.tail.reverse.foldlM t.step (t.start path)
  t.requireDirectory p
  return (p, last.head?.filter fun name => name ≠ "." ∧ name ≠ "..")

/-! ### Files -/

/-- Whether a path leads to something. -/
def isPresent (t : FileTree) (path : String) : Bool := (t.locate path).toBool

/-- Whether a path leads to a directory. -/
def isDirectory (t : FileTree) (path : String) : Bool :=
  match t.locate path with
  | .ok (_, .directory) => true
  | _ => false

/-- What is in the file at a path. -/
def read (t : FileTree) (path : String) : Except FileError Bytes := do
  match ← t.locate path with
  | (_, .file content) => return content
  | (_, .directory) => throw .isDirectory

/-- Makes the file at a path, or replaces what is in it. -/
def write (t : FileTree) (path : String) (content : Bytes) : Except FileError FileTree := do
  match ← t.destination path with
  | (_, none) => throw .isDirectory
  | (p, some name) =>
      if path.endsWith "/" then throw .isDirectory
      let p ← t.step p name
      if t.entry? p = some .directory then throw .isDirectory
      return t.put p (.file content)

/-! ### Directories -/

/-- Makes one directory. -/
def makeDirectory (t : FileTree) (path : String) : Except FileError FileTree := do
  match ← t.destination path with
  | (_, none) => throw .alreadyExists
  | (p, some name) =>
      let p ← t.step p name
      if (t.entry? p).isSome then throw .alreadyExists
      return t.put p .directory

/-- Makes one directory, unless it is there. -/
def ensureDirectory (t : FileTree) (path : String) : Except FileError Unit × FileTree :=
  match t.makeDirectory path with
  | .ok t => (.ok (), t)
  | .error e => (if t.isDirectory path then .ok () else .error e, t)

/-- Makes the directory with these parts, the last one first, and those above it. -/
def makeAll : List String → FileTree → Except FileError Unit × FileTree
  | [], t => (.ok (), t)
  | part :: above, t =>
      let path := FilePath.ofParts (part :: above).reverse
      match t.ensureDirectory path with
      | (.error .notFound, t) =>
          match makeAll above t with
          | (.ok (), t) => t.ensureDirectory path
          | (.error e, t) => (.error e, t)
      | result => result

/-- Makes the directories above a path. -/
def makeAbove (t : FileTree) (path : String) : Except FileError Unit × FileTree :=
  makeAll (FilePath.above path).reverse t

/-- The file system that a tree is. -/
def system : FileSystem (StateM FileTree) where
  isPresent path := return (← get).isPresent path
  read path := return (← get).read path
  write path content := do
    match (← get).write path content with
    | .ok t => set t; return .ok ()
    | .error e => return .error e
  makeAbove path := modifyGet (·.makeAbove path)

end FileTree

end MerkleStore
