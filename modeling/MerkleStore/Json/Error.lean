import MerkleStore.Decimal
import MerkleStore.Hex
import MerkleStore.Json.Value
import MerkleStore.Unprintable

/-!
# Why a text is refused

A text is refused because it is no JSON, or because its value has the wrong
shape (`Mismatch`). Where the place is known, an error carries it as a line and
a column, counted in bytes.
-/

namespace MerkleStore.Json

/-- What stands in a place. -/
inductive Found
  | null
  | boolean (b : Bool)
  | integer (n : Int)
  | real (x : Binary64)
  | text (s : String)
  | sequence
  | mapping
deriving DecidableEq

/-- What a value is, in one word. -/
def Value.found : Value → Found
  | null => .null
  | boolean b => .boolean b
  | number (.integer n) => .integer n
  | number (.real x) => .real x
  | text s => .text s
  | array _ => .sequence
  | object _ => .mapping

/-- A character inside a quoted text; one without a picture is shown by its number. -/
def quoteChar (c : Char) : List Char :=
  if c = '"' then ['\\', '"']
  else if c = '\\' then ['\\', '\\']
  else if c = '\t' then ['\\', 't']
  else if c = '\n' then ['\\', 'n']
  else if c = '\r' then ['\\', 'r']
  else if c.toNat = 0 then ['\\', '0']
  else if Unprintable.contains c then
    ['\\', 'u', '\x7b'] ++ Nat.toDigits 16 c.toNat ++ ['\x7d']
  else [c]

/-- A text in quotes, as it is shown in a message. -/
def quote (s : String) : String :=
  String.ofList ('"' :: s.toList.flatMap quoteChar ++ ['"'])

def Found.describe : Found → String
  | .null => "null"
  | .boolean b => "boolean `" ++ (if b then "true" else "false") ++ "`"
  | .integer n => "integer `" ++ toString n ++ "`"
  | .real x => "floating point `" ++ x.text ++ "`"
  | .text s => "string " ++ quote s
  | .sequence => "sequence"
  | .mapping => "map"

/-- How a value fails to have the shape it should have. -/
inductive Mismatch
  | wrongType (found : Found) (expected : String)
  | wrongValue (found : Found) (expected : String)
  | wrongLength (length : Nat) (expected : String)
  | missingField (name : String)
  | duplicateField (name : String)
  | unknownVariant (name : String) (known : List String)
  /-- None of the forms of this type fits. -/
  | noForm (type : String)
  | hex (error : Hex.Error)
  | decimal (error : Decimal.Error)
deriving DecidableEq

def Mismatch.message : Mismatch → String
  | .wrongType found expected =>
      "invalid type: " ++ found.describe ++ ", expected " ++ expected
  | .wrongValue found expected =>
      "invalid value: " ++ found.describe ++ ", expected " ++ expected
  | .wrongLength length expected =>
      "invalid length " ++ toString length ++ ", expected " ++ expected
  | .missingField name => "missing field `" ++ name ++ "`"
  | .duplicateField name => "duplicate field `" ++ name ++ "`"
  | .unknownVariant name known =>
      "unknown variant `" ++ name ++ "`, expected one of " ++
        String.intercalate ", " (known.map fun n => "`" ++ n ++ "`")
  | .noForm type => "data did not match any variant of untagged enum " ++ type
  | .hex error => error.message
  | .decimal error => error.message

/-- Why a text is refused. -/
inductive Cause
  | endInList
  | endInObject
  | endInText
  | endInValue
  | expectedColon
  | expectedListEnd
  | expectedObjectEnd
  | expectedWord
  | expectedValue
  | invalidEscape
  | invalidNumber
  | numberOutOfRange
  | controlCharacter
  | nameNotText
  | loneSurrogate
  | unfinishedPair
  | trailingComma
  | trailingCharacters
  | tooDeep
  | mismatch (m : Mismatch)
deriving DecidableEq

def Cause.message : Cause → String
  | .endInList => "EOF while parsing a list"
  | .endInObject => "EOF while parsing an object"
  | .endInText => "EOF while parsing a string"
  | .endInValue => "EOF while parsing a value"
  | .expectedColon => "expected `:`"
  | .expectedListEnd => "expected `,` or `]`"
  | .expectedObjectEnd => "expected `,` or `\x7d`"
  | .expectedWord => "expected ident"
  | .expectedValue => "expected value"
  | .invalidEscape => "invalid escape"
  | .invalidNumber => "invalid number"
  | .numberOutOfRange => "number out of range"
  | .controlCharacter => "control character (\\u0000-\\u001F) found while parsing a string"
  | .nameNotText => "key must be a string"
  | .loneSurrogate => "lone leading surrogate in hex escape"
  | .unfinishedPair => "unexpected end of hex escape"
  | .trailingComma => "trailing comma"
  | .trailingCharacters => "trailing characters"
  | .tooDeep => "recursion limit exceeded"
  | .mismatch m => m.message

/-- A place in a text, counted from line 1 and column 0 in bytes. -/
structure Position where
  line : Nat
  column : Nat
deriving DecidableEq

/-- The place after the first `n` bytes. -/
def Position.after (text : List Char) (n : Nat) : Position :=
  let before := (text.flatMap String.utf8EncodeChar).take n
  let lastLine := before.reverse.takeWhile (· ≠ 10)
  ⟨1 + before.count 10, lastLine.length⟩

/-- A refusal, with its place where that is known. -/
structure Error where
  cause : Cause
  position : Option Position
deriving DecidableEq

def Error.message (e : Error) : String :=
  match e.position with
  | none => e.cause.message
  | some p =>
      e.cause.message ++ " at line " ++ toString p.line ++ " column " ++ toString p.column

/-- A refusal at a place given by what follows it. -/
structure Fault where
  cause : Cause
  /-- What had not been read. -/
  rest : List Char
  /-- Bytes of `rest` that are counted as read; absent while the place is open. -/
  offset : Option Nat

namespace Fault

/-- A fault after what has been read. -/
def here (cause : Cause) (rest : List Char) : Fault := ⟨cause, rest, some 0⟩

/-- A fault on the next byte. -/
def next (cause : Cause) (rest : List Char) : Fault := ⟨cause, rest, some 1⟩

/-- A fault of a value that was read up to `rest`; its place is settled when what
encloses the value has been closed. -/
def ofMismatch (m : Mismatch) (rest : List Char) : Fault := ⟨.mismatch m, rest, none⟩

/-- Settles the place of a fault that has none; `close` passes over what closes
the value around it. -/
def settle (close : List Char → List Char) (f : Fault) : Fault :=
  match f.offset with
  | some _ => f
  | none => here f.cause (close f.rest)

/-- The error a fault is in the text it was found in. -/
def toError (text : List Char) (f : Fault) : Error :=
  match f.offset with
  | none => ⟨f.cause, none⟩
  | some offset =>
    let total := Hex.utf8Length text
    let read := total - Hex.utf8Length f.rest
    ⟨f.cause, some (.after text (min total (read + offset)))⟩

end Fault

end MerkleStore.Json
