/-!
# Paths

A path is a text: names with slashes between them. Two paths are the same if they
have the same parts, whatever slashes and dots they are written with.
-/

namespace MerkleStore.FilePath

/-- The parts of a path: a slash at the front of an absolute one, then its names. A
name that is empty or a dot says nothing, except for a dot at the very front. -/
def parts (path : String) : List String :=
  let names := path.splitOn "/"
  let kept := names.filter fun name => name ≠ "" ∧ name ≠ "."
  if path.startsWith "/" then "/" :: kept
  else if names.head? = some "." then "." :: kept
  else kept

/-- A path with these parts. -/
def ofParts : List String → String
  | "/" :: names => "/" ++ "/".intercalate names
  | names => "/".intercalate names

/-- Whether two paths have the same parts. -/
def isSame (a b : String) : Bool := parts a == parts b

/-- The parts of the path a path is directly below; none for the root and for a path
without parts. -/
def above (path : String) : List String := (parts path).dropLast

end MerkleStore.FilePath
