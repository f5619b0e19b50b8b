import MerkleStore.CommandLine.Report
import MerkleStore.FileSystem
import MerkleStore.Settings
import MerkleStore.Replica
import MerkleStore.Store.Audit

/-!
# Running a command

A command line is run on a file system. The settings are read first; then the
database is opened, and created if it is missing, before the arguments of a command
are looked at; then the command does its work on the open store, and its file is
written.
-/

namespace MerkleStore.CommandLine

open Json

/-- What a command does with an open store. It may print a document, and it gives an
exit code. -/
abbrev Task := Store → Except Failure (Option Value × Nat) × Store

/-! ### Settings -/

/-- Where the settings are. -/
def settingsPath? (o : Options) (d : Directories) : Option String := o.config <|> d.settingsPath?

/-- The settings of a run: a file, then variables, then options. -/
def settings (o : Options) (d : Directories) (path : Option String) (source : SettingsSource)
    (lookup : String → Option String) : Except Failure Settings :=
  let base := Settings.initial d
  let loaded :=
    match path with
    | some path => Settings.ofSource base path source
    | none => .ok base
  match loaded with
  | .error e => .error (.store e)
  | .ok c =>
    match c.applyVariables lookup with
    | (.error e, _) => .error (.store e)
    | (.ok (), c) => .ok { c with path := o.database.getD c.path }

/-- What a file of settings holds. -/
def sourceOf : Except FileError Bytes → SettingsSource
  | .error e => .unreadable e
  | .ok bytes =>
    match String.fromUTF8? ⟨bytes.toArray⟩ with
    | some text => .text text
    | none => .unreadable .notText

/-! ### Arguments -/

def treeIdOf (s : String) : Except Failure TreeId :=
  match TreeId.ofHex s with
  | .ok t => .ok t
  | .error _ => .error (.treeId s)

def hashOf (s : String) : Except Failure Hash :=
  match Hash.ofHex s with
  | .ok h => .ok h
  | .error _ => .error (.hash s)

/-- A hash, or `none` in any mixture of cases for the empty tree. -/
def optionalHashOf (s : String) : Except Failure (Option Hash) :=
  if s.toList.map lowerAscii = ['n', 'o', 'n', 'e'] then .ok none else (hashOf s).map some

def sideOf (s : String) : Except Failure Side :=
  match Side.ofName s with
  | .ok side => .ok side
  | .error name => .error (.side name)

/-- A key or value as it is given. -/
def bytesOf (hex : Bool) (s : String) : Except Failure Bytes :=
  if hex then
    match Hex.decode (Hex.dropMarker s.toList) with
    | .ok bs => .ok bs
    | .error e => .error (.hex s e)
  else .ok (Utf8.ofText s)

/-- An argument that may be missing. -/
def optionally {α : Type} (read : String → Except Failure α) :
    Option String → Except Failure (Option α)
  | some s => (read s).map some
  | none => .ok none

/-! ### Commands on an open store -/

/-- A task that changes the store or looks at it, and shows the result. -/
def act {α : Type} (x : Action α) (showResult : α → Value) : Task := fun s =>
  match x s with
  | (.ok a, s) => (.ok (some (showResult a), 0), s)
  | (.error e, s) => (.error (.store e), s)

/-- A task that only looks at the store. -/
def look {α : Type} (f : Store → Except Error α) (showResult : α → Value) : Task :=
  act (.read f) showResult

/-- The leaf of a key; a key or tree that does not exist is told in a document. -/
def getTask (hex : Bool) (t : TreeId) (key : Bytes) (name : String) : Task := fun s =>
  match s.terminal t key with
  | .ok n => (.ok (some (terminalDocument hex n), 0), s)
  | .error e =>
      if e.isAbsence then (.ok (some (errorDocument ("Key not found: " ++ name)), 1), s)
      else (.error (.store e), s)

/-- An audit; what it finds is told in a document. -/
def checkTask : Task := fun s =>
  match Store.audit s with
  | (.ok (), s) =>
      let counts :=
        [("nodes", Value.natural s.numNodes), ("trees", Value.natural s.treeIds.length)]
      (.ok (some (okDocument counts), 0), s)
  | (.error e, s) => (.ok (some (errorDocument e.message), 1), s)

def diffDocument (hex : Bool) (first last : Option Hash) (changes : List Change) : Value :=
  .sorted [("from", optionalHash first), ("to", optionalHash last),
    ("added", .natural (changes.countP Change.isAdded)),
    ("removed", .natural (changes.countP Change.isRemoved)),
    ("modified", .natural (changes.countP Change.isModified)),
    ("entries", .array (changes.map (changeDocument hex)))]

def reportDocument (r : Replica.Report) : Value :=
  okDocument [("tree_id", .text r.tree.hex), ("from_generation", .natural r.first),
    ("to_generation", .natural r.last), ("root", .text r.root.hex),
    ("committed", .array (r.confirmed.map Value.natural))]

/-- A replication from the server at an address. -/
def replicateTask (connection : Except ConnectionError Peer) (t : TreeId) (root : Hash) : Task :=
  fun s =>
    match connection with
    | .error e => (.error (.store (.connection e)), s)
    | .ok peer =>
      let exchange : Exchange Replica.Report := do
        let report ← Replica.replicate t root
        Replica.close
        return report
      match exchange peer ⟨s, []⟩ with
      | (.ok report, session) => (.ok (some (reportDocument report), 0), session.store)
      | (.error e, session) => (.error (.store e), session.store)

/-- What a command does once the database at this path is open. -/
def taskOf (hex : Bool) (path : String) (connect : String → Except ConnectionError Peer) :
    Command → Except Failure Task
  | .init =>
      return look (fun _ => .ok ()) fun _ =>
        okDocument [("message", .text ("Created database at " ++ path))]
  | .createTree tree => do
      let t ← treeIdOf tree
      return act (Store.addTree t) fun _ => okDocument [("tree_id", .text t.hex)]
  | .insert tree key value reference side => do
      let t ← treeIdOf tree
      let reference ← optionally hashOf reference
      let side ← optionally sideOf side
      let key ← bytesOf hex key
      let value ← bytesOf hex value
      let insertion : Action (Hash × Root) := do
        let h ← Store.insert t key value reference side
        return (h, ← .read (·.latestRoot t))
      return act insertion fun (h, r) =>
        okDocument [("hash", .text h.hex), ("root", rootDocument r)]
  | .delete tree key => do
      let t ← treeIdOf tree
      let key ← bytesOf hex key
      let deletion : Action Root := do
        Store.delete t key
        .read (·.latestRoot t)
      return act deletion fun r => okDocument [("root", rootDocument r)]
  | .get tree key => do
      return getTask hex (← treeIdOf tree) (← bytesOf hex key) key
  | .root tree generation => do
      let t ← treeIdOf tree
      return look (fun s =>
        match generation with
        | some g => s.root t g
        | none => s.latestRoot t) rootDocument
  | .roots tree first last => do
      let t ← treeIdOf tree
      return look (·.rootsBetween t first (last.getD (wordBound - 1))) fun rs =>
        listDocument "roots" (rs.map rootDocument)
  | .operations tree first last => do
      let t ← treeIdOf tree
      return look (·.operations t first last) fun os =>
        listDocument "operations"
          ((os.zipIdx (first + 1)).map fun (o, g) => operationDocument hex g o)
  | .nodes tree root => do
      let t ← treeIdOf tree
      let root ← optionally hashOf root
      return look (·.keysValues t root) fun ns =>
        listDocument "nodes" (ns.map (terminalDocument hex))
  | .ancestors tree node => do
      let t ← treeIdOf tree
      let h ← hashOf node
      return look (·.ancestors t h) fun ns =>
        listDocument "ancestors" (ns.map internalDocument)
  | .commit tree generation => do
      let t ← treeIdOf tree
      let confirmation : Action Root := do
        Store.confirm t generation
        .read (·.root t generation)
      return act confirmation rootDocument
  | .check => return checkTask
  | .diff tree first last => do
      let t ← treeIdOf tree
      let first ← optionalHashOf first
      let last ← optionally optionalHashOf last
      let comparison (s : Store) : Except Error (Option Hash × List Change) := do
        let last ←
          match last with
          | some h => pure h
          | none => do pure (← s.latestRoot t).node
        return (last, ← s.diff t first last)
      return look comparison fun (last, changes) => diffDocument hex first last changes
  | .trees =>
      return look (fun s => .ok s.treeIds) fun ts =>
        listDocument "trees" (ts.map fun t => .text t.hex)
  | .replicate url tree root => do
      return replicateTask (connect url) (← treeIdOf tree) (← hashOf root)
  | .serve _ _ _ => return fun s => (.ok (none, 0), s)

/-! ### Databases -/

/-- The file behind a store. -/
def fileOf (s : Store) : Option Bytes := s.journal.map Journal.bytes

/-- Runs a task on a store: what is printed, and the store afterwards. -/
def runTask (format : Format) (task : Task) (s : Store) : Outcome × Store :=
  match task s with
  | (.ok (v, code), s) => (⟨code, (v.map (document format)).getD "", ""⟩, s)
  | (.error f, s) => (f.outcome, s)

/-- Runs a command on the open store of the database at a path. -/
def perform (o : Options) (path : String) (connect : String → Except ConnectionError Peer)
    (command : Command) (s : Store) : Outcome × Store :=
  match taskOf o.hex path connect command with
  | .error f => (f.outcome, s)
  | .ok task => runTask o.format task s

/-- What is printed for a command line that is not understood. -/
def usageText : String := "usage: " ++ Usage.programSynopsis ++ "\n"

/-! ### On a file system -/

variable {m : Type → Type} [Monad m]

/-- The settings of a run. -/
def readSettings (files : FileSystem m) (lookup : String → Option String) (o : Options) :
    m (Except Failure Settings) := do
  let directories := Directories.ofVariables lookup
  let path := settingsPath? o directories
  let source ←
    match path with
    | some path =>
        if ← files.isPresent path then pure (sourceOf (← files.read path)) else pure .absent
    | none => pure .absent
  return settings o directories path source lookup

/-- Makes a new database at a path. -/
def createDatabase (z : Codec) (files : FileSystem m) (path : String) : m (Except Error Store) := do
  match ← files.write path Journal.header with
  | .error e => return .error (.file e)
  | .ok () => return .ok (.create z)

/-- Opens the database at a path, or creates it if it is missing. -/
def openDatabase (z : Codec) (files : FileSystem m) (path : String) : m (Except Error Store) := do
  if ← files.isPresent path then
    match ← files.read path with
    | .error e => return .error (.file e)
    | .ok bytes => return Store.ofFile z bytes
  else createDatabase z files path

/-- The store a command works on. A new database may need directories above it. -/
def storeFor (z : Codec) (files : FileSystem m) (path : String) : Command → m (Except Failure Store)
  | .init => do
    match ← files.makeAbove path with
    | .error e => return .error (.directories e)
    | .ok () => return (← createDatabase z files path).mapError Failure.store
  | _ => return (← openDatabase z files path).mapError (Failure.database path)

/-- Runs a command with settings. -/
def execute (z : Codec) (files : FileSystem m) (connect : String → Except ConnectionError Peer)
    (o : Options) (c : Settings) (command : Command) : m Outcome := do
  match ← storeFor z files c.path command with
  | .error f => return f.outcome
  | .ok s =>
    let (outcome, s) := perform o c.path connect command s
    if let some bytes := fileOf s then
      let _ ← files.write c.path bytes
    return outcome

/-- Runs a command line. -/
def run (z : Codec) (files : FileSystem m) (connect : String → Except ConnectionError Peer)
    (lookup : String → Option String) (args : List String) : m Outcome := do
  match parse args with
  | .error (.print text) => return ⟨0, text, ""⟩
  | .error .usage => return ⟨2, "", usageText⟩
  | .ok (o, command) =>
    match ← readSettings files lookup o with
    | .error f => return f.outcome
    | .ok c => execute z files connect o c command

end MerkleStore.CommandLine
