import MerkleStore.Error
import MerkleStore.FilePath
import MerkleStore.Json.Fields
import MerkleStore.Json.Printer

/-!
# Settings

Where the database is and how the server listens. Settings come from a JSON file,
then from variables of the environment. A file may leave out either part, and in
the server's part the two limits.
-/

namespace MerkleStore

open Json

/-- Directories of the user. -/
structure Directories where
  data : Option String
  config : Option String

namespace Directories

/-- A path below a directory. -/
def join (directory path : String) : String :=
  if directory.endsWith "/" then directory ++ path else directory ++ "/" ++ path

/-- The directories that variables name. A variable counts if it holds an absolute
path; otherwise the directory is in its usual place below the home directory. -/
def ofVariables (lookup : String → Option String) : Directories :=
  let home := (lookup "HOME").filter (· ≠ "")
  let named (name usual : String) : Option String :=
    (lookup name).filter (·.startsWith "/") <|> home.map (join · usual)
  ⟨named "XDG_DATA_HOME" ".local/share", named "XDG_CONFIG_HOME" ".config"⟩

/-- Where the database is if nothing else is said. -/
def databasePath (d : Directories) : String :=
  match d.data with
  | some directory => join directory "arbor/store.arbor"
  | none => "store.arbor"

/-- Where the settings are if nothing else is said. -/
def settingsPath? (d : Directories) : Option String :=
  d.config.map fun directory => join directory "arbor/config.json"

end Directories

/-- How the server listens. -/
structure ServerSettings where
  host : String
  port : Nat
  /-- Seconds after which a silent connection is closed. -/
  idleTimeout : Option Nat
  /-- The most bytes a message may have. -/
  maxMessageSize : Option Nat
deriving DecidableEq

/-- All settings. -/
structure Settings where
  /-- The path of the database. -/
  path : String
  server : ServerSettings
deriving DecidableEq

/-- What is at the path of the settings. -/
inductive SettingsSource
  | absent
  | unreadable (error : FileError)
  | text (text : String)

namespace ServerSettings

/-- How the server listens if nothing else is said. -/
def initial : ServerSettings := ⟨"127.0.0.1", 8575, none, none⟩

/-- The address to listen at. -/
def address (c : ServerSettings) : String := c.host ++ ":" ++ Decimal.text c.port

/-- A number that may be missing. -/
def optionalNumber : Option Nat → Value
  | some n => .natural n
  | none => .null

def toJson (c : ServerSettings) : Value :=
  .object [("host", .text c.host), ("port", .natural c.port),
    ("idle_timeout_secs", optionalNumber c.idleTimeout),
    ("max_message_size", optionalNumber c.maxMessageSize)]

/-- The fields that have been read so far. -/
structure Partial where
  host : Option String := none
  port : Option Nat := none
  idleTimeout : Option (Option Nat) := none
  maxMessageSize : Option (Option Nat) := none

/-- An object with a host and a port. -/
def shape : Shape Partial ServerSettings where
  name := "struct ServerConfig"
  fields :=
    [{ name := "host"
       isSet := fun p => p.host.isSome
       read := fun _ p cs => do
         let (s, cs) ← readTextField "a string" cs
         return ({ p with host := some s }, cs) },
     { name := "port"
       isSet := fun p => p.port.isSome
       read := fun _ p cs => do
         let (n, cs) ← readNatural (Nat.pow 2 16) "u16" cs
         return ({ p with port := some n }, cs) },
     { name := "idle_timeout_secs"
       isSet := fun p => p.idleTimeout.isSome
       read := fun _ p cs => do
         let (n, cs) ← readOptional (readNatural wordBound "u64") cs
         return ({ p with idleTimeout := some n }, cs) },
     { name := "max_message_size"
       isSet := fun p => p.maxMessageSize.isSome
       read := fun _ p cs => do
         let (n, cs) ← readOptional (readNatural wordBound "usize") cs
         return ({ p with maxMessageSize := some n }, cs) }]
  start := {}
  build := fun p => do
    return ⟨← required "host" p.host, ← required "port" p.port, p.idleTimeout.getD none,
      p.maxMessageSize.getD none⟩

end ServerSettings

namespace Settings

/-- The settings if nothing else is said. -/
def initial (d : Directories) : Settings := ⟨d.databasePath, .initial⟩

def toJson (c : Settings) : Value :=
  .object [("store", .object [("path", .text c.path)]), ("server", c.server.toJson)]

/-- Whether two settings mean the same; their paths may be written differently. -/
def isSame (c d : Settings) : Bool := FilePath.isSame c.path d.path && c.server == d.server

/-- The text of the settings, to be kept in a file. -/
def text (c : Settings) : String := c.toJson.pretty

/-- An object with a path. -/
def pathShape : Shape (Option String) String where
  name := "struct StoreConfig"
  fields :=
    [{ name := "path"
       isSet := Option.isSome
       read := fun _ _ cs => do
         let (s, cs) ← readTextField "path string" cs
         return (some s, cs) }]
  start := none
  build := required "path"

/-- An object with a part for the database and one for the server; a part that is
left out is as in `base`. -/
def shape (base : Settings) : Shape (Option String × Option ServerSettings) Settings where
  name := "struct Config"
  fields :=
    [{ name := "store"
       isSet := fun p => p.1.isSome
       read := fun depth p cs => do
         let (path, cs) ← pathShape.read depth cs
         return ((some path, p.2), cs) },
     { name := "server"
       isSet := fun p => p.2.isSome
       read := fun depth p cs => do
         let (server, cs) ← ServerSettings.shape.read depth cs
         return ((p.1, some server), cs) }]
  start := (none, none)
  build := fun p => .ok ⟨p.1.getD base.path, p.2.getD base.server⟩

/-- The settings a text holds. -/
def parse (base : Settings) (text : String) : Except Json.Error Settings :=
  parseWith ((shape base).read depthLimit) text

/-- The settings in a file, or `base` if there is none. -/
def ofSource (base : Settings) (path : String) : SettingsSource → Except Error Settings
  | .absent => .ok base
  | .unreadable e => .error (.config (.unreadable path e))
  | .text text => (parse base text).mapError fun e => .config (.unparsable path e)

/-! ### Variables -/

/-- Takes a value over if it is there. -/
def override (value : Option String) (set : Settings → String → Except Error Settings)
    (c : Settings) : Except Error Unit × Settings :=
  match value with
  | none => (.ok (), c)
  | some s =>
      match set c s with
      | .ok c => (.ok (), c)
      | .error e => (.error e, c)

def setPort (c : Settings) (s : String) : Except Error Settings :=
  match Decimal.read (Nat.pow 2 16) s with
  | .ok n => .ok { c with server := { c.server with port := n } }
  | .error _ => .error (.config (.port s))

/-- An empty text or `none` stands for no limit. -/
def setIdleTimeout (c : Settings) (s : String) : Except Error Settings :=
  if s = "" ∨ s = "none" then .ok { c with server := { c.server with idleTimeout := none } }
  else
    match Decimal.read wordBound s with
    | .ok n => .ok { c with server := { c.server with idleTimeout := some n } }
    | .error _ => .error (.config (.idleTimeout s))

/-- The settings with those that variables give; at the first that cannot be used,
the ones before it have been taken over. -/
def applyVariables (lookup : String → Option String) (c : Settings) :
    Except Error Unit × Settings :=
  let c :=
    match lookup "ARBOR_DB_PATH" with
    | some path => { c with path }
    | none => c
  let c :=
    match lookup "ARBOR_HOST" with
    | some host => { c with server := { c.server with host } }
    | none => c
  match override (lookup "ARBOR_PORT") setPort c with
  | (.error e, c) => (.error e, c)
  | (.ok (), c) => override (lookup "ARBOR_IDLE_TIMEOUT_SECS") setIdleTimeout c

end Settings

end MerkleStore
