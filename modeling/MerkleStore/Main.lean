import MerkleStore.CommandLine.Run
import MerkleStore.Zstandard.Stored

/-!
# The program

Runs a command line on the disk. `serve` answers requests that arrive line by line
on the standard input; no other server can be reached.
-/

namespace MerkleStore.Program

open CommandLine

/-- The variables that are looked at. -/
def variableNames : List String :=
  ["HOME", "XDG_DATA_HOME", "XDG_CONFIG_HOME", "ARBOR_DB_PATH", "ARBOR_HOST", "ARBOR_PORT",
    "ARBOR_IDLE_TIMEOUT_SECS"]

/-- The variables that are set. -/
def environment : IO (String → Option String) := do
  let values ← variableNames.mapM fun name => return (name, ← IO.getEnv name)
  return fun name => (values.lookup name).join

/-- No compression library is linked: contents are kept as they are. -/
def codec : Codec := Zstandard.stored

/-! ### The disk -/

/-- A path leads to something. -/
def isPresent (path : String) : IO Bool := do
  try
    let _ ← IO.FS.realPath path
    return true
  catch _ => return false

/-- A path leads to a directory. -/
def isDirectory (path : String) : IO Bool := do
  try
    (← IO.FS.realPath path).isDir
  catch _ => return false

/-- The text of a path in which a directory is named; the empty path is the present
one. -/
def directoryOf (path : String) : String :=
  match FilePath.above path with
  | [] => "."
  | parts => FilePath.ofParts parts

/-- Does something with the file at a path. -/
def attempt {α : Type} (path : String) (action : IO α) : IO (Except FileError α) := do
  if path.contains '\x00' then return .error .nulInPath
  if path.isEmpty then return .error .notFound
  if path.endsWith "/" || (← isDirectory path) then return .error .isDirectory
  let directory := directoryOf path
  if !(← isDirectory directory) then
    return .error (if ← isPresent directory then .notDirectory else .notFound)
  try
    return .ok (← action)
  catch e => return .error (.other (toString e))

/-- Makes directories. -/
def makeDirectories (path : String) : IO (Except FileError Unit) := do
  if path.contains '\x00' then return .error .nulInPath
  try
    IO.FS.createDirAll path
    return .ok ()
  catch e =>
    return .error (if ← isPresent path then .alreadyExists else .other (toString e))

/-- The files of the machine. -/
def disk : FileSystem IO where
  isPresent := isPresent
  read path := attempt path do return (← IO.FS.readBinFile path).toList
  write path content := attempt path (IO.FS.writeBinFile path ⟨content.toArray⟩)
  makeAbove path := makeDirectories (directoryOf path)

/-! ### Serving -/

/-- Answers requests until the input or the conversation ends. -/
partial def converse (s : Store) (limit : Option Nat) : IO Unit := do
  let line ← (← IO.getStdin).getLine
  if line.isEmpty then return
  let reaction := Server.react s limit (.text (line.dropEndWhile (· == '\n')).toString)
  if let .answer text := reaction then
    IO.println text
    (← IO.getStdout).flush
  unless reaction.isLast do converse s limit

/-- Serves the database that a command line names, if it asks for that. -/
def serve (lookup : String → Option String) (args : List String) : IO Unit := do
  if let .ok (o, .serve _ _ _) := parse args then
    if let .ok c ← readSettings disk lookup o then
      if let .ok s ← openDatabase codec disk c.path then
        converse s c.server.maxMessageSize

/-- No server can be reached. -/
def connect (_ : String) : Except ConnectionError Peer := .error .unreachable

end MerkleStore.Program

/-- Runs the command that the arguments name. -/
def main (args : List String) : IO UInt32 := do
  let lookup ← MerkleStore.Program.environment
  let outcome ← MerkleStore.CommandLine.run MerkleStore.Program.codec
    MerkleStore.Program.disk MerkleStore.Program.connect lookup args
  MerkleStore.Program.serve lookup args
  IO.print outcome.stdout
  IO.eprint outcome.stderr
  return outcome.code.toUInt32
