import MerkleStore.Json.Reader
import MerkleStore.Json.Skip

/-!
# Reading records straight from a text

A record is written as an object, whose members may stand in any order among
members nobody asked for, or as a list of its fields in their order. Fields are
read as they come, so the first thing wrong in a text is what is reported.
-/

namespace MerkleStore.Json

/-! ### Single values -/

/-- What is reported where a value of another kind stands. -/
def wrongTypeAt (expected : String) (cs : List Char) : Fault :=
  let mismatchAt (found : Found) (cs : List Char) : Fault :=
    .here (.mismatch (.wrongType found expected)) cs
  let behind (found : Found) (r : Except Fault (List Char)) : Fault :=
    match r with
    | .ok cs => mismatchAt found cs
    | .error f => f
  match cs with
  | [] => .next .expectedValue []
  | 'n' :: cs => behind .null (expectWord "ull".toList cs)
  | 't' :: cs => behind (.boolean true) (expectWord "rue".toList cs)
  | 'f' :: cs => behind (.boolean false) (expectWord "alse".toList cs)
  | '"' :: cs =>
      match readText cs with
      | .ok (s, cs) => mismatchAt (.text s) cs
      | .error f => f
  | '[' :: cs => mismatchAt .sequence ('[' :: cs)
  | '\x7b' :: cs => mismatchAt .mapping ('\x7b' :: cs)
  | c :: cs =>
      if c = '-' || isDigit c then
        match readNumber (c :: cs) with
        | .ok (n, cs) => mismatchAt (Value.number n).found cs
        | .error f => f
      else .next .expectedValue (c :: cs)

/-- A text. -/
def readTextField (expected : String) (cs : List Char) : Except Fault (String × List Char) :=
  match skipBlank cs with
  | [] => .error (.next .endInValue [])
  | '"' :: cs => readText cs
  | cs => .error (wrongTypeAt expected cs)

/-- A whole number below a bound. -/
def readNatural (bound : Nat) (expected : String) (cs : List Char) :
    Except Fault (Nat × List Char) :=
  match skipBlank cs with
  | [] => .error (.next .endInValue [])
  | c :: cs =>
      if c = '-' || isDigit c then do
        let (n, cs) ← readNumber (c :: cs)
        match n with
        | .integer (.ofNat n) =>
            if n < bound then return (n, cs)
            else throw (.here (.mismatch (.wrongValue (.integer n) expected)) cs)
        | .integer n => throw (.here (.mismatch (.wrongValue (.integer n) expected)) cs)
        | .real x => throw (.here (.mismatch (.wrongType (.real x) expected)) cs)
      else .error (wrongTypeAt expected (c :: cs))

/-- A value that may be `null`. -/
def readOptional {α : Type} (read : List Char → Except Fault (α × List Char))
    (cs : List Char) : Except Fault (Option α × List Char) :=
  match skipBlank cs with
  | 'n' :: cs => do return (none, ← expectWord "ull".toList cs)
  | cs => do
      let (a, cs) ← read cs
      return (some a, cs)

/-! ### Closing brackets behind a fault -/

/-- Passes over the bracket that closes a list, or over a comma. -/
def closeList (cs : List Char) : List Char :=
  match skipBlank cs with
  | ']' :: cs => cs
  | ',' :: cs => skipBlank cs
  | cs => cs

/-- Passes over the bracket that closes an object. -/
def closeObject (cs : List Char) : List Char :=
  match skipBlank cs with
  | '\x7d' :: cs => cs
  | cs => cs

/-! ### Lists -/

/-- The elements of a list up to its closing bracket. `fuel` bounds their number. -/
def readElements {α : Type} (read : List Char → Except Fault (α × List Char)) :
    Nat → Bool → List Char → Except Fault (List α × List Char)
  | 0, _, _ => .error (.next .endInList [])
  | fuel + 1, isFirst, cs => do
      match ← nextItem isFirst cs with
      | (none, cs) => return ([], cs)
      | (some cs, _) =>
        let (a, cs) ← read cs
        let (as, cs) ← readElements read fuel false cs
        return (a :: as, cs)

/-- A list; an element is told how deep it may go. -/
def readList {α : Type} (read : Nat → List Char → Except Fault (α × List Char)) (depth : Nat)
    (cs : List Char) : Except Fault (List α × List Char) :=
  match skipBlank cs with
  | [] => .error (.next .endInValue [])
  | '[' :: cs =>
      if depth ≤ 1 then .error (.next .tooDeep ('[' :: cs))
      else
        (readElements (read (depth - 1)) (cs.length + 1) true cs).mapError
          (Fault.settle closeList)
  | cs => .error (wrongTypeAt "a sequence" cs)

/-! ### Records -/

/-- One field of a record that is being read into `σ`. -/
structure Field (σ : Type) where
  name : String
  isSet : σ → Bool
  /-- Reads the value into the record; it is told how deep it may go. -/
  read : Nat → σ → List Char → Except Fault (σ × List Char)

/-- What a record of type `α` looks like, collected in `σ` while it is read. -/
structure Shape (σ α : Type) where
  name : String
  fields : List (Field σ)
  start : σ
  build : σ → Except Mismatch α

namespace Shape

variable {σ α : Type}

/-- The members of an object up to its closing bracket. `fuel` bounds their number. -/
def readMembers (fields : List (Field σ)) (depth : Nat) :
    Nat → Bool → σ → List Char → Except Fault (σ × List Char)
  | 0, _, _, _ => .error (.next .endInObject [])
  | fuel + 1, isFirst, s, cs => do
      match ← nextName isFirst cs with
      | (none, cs) => return (s, cs)
      | (some cs, _) =>
        let (name, cs) ← readText cs
        match fields.find? (·.name == name) with
        | none =>
            let cs ← skipValue (← skipColon cs)
            readMembers fields depth fuel false s cs
        | some f =>
            if f.isSet s then throw (.ofMismatch (.duplicateField name) cs)
            let (s, cs) ← f.read depth s (← skipColon cs)
            readMembers fields depth fuel false s cs

/-- The end of a list all of whose fields have been read. -/
def expectListEnd (cs : List Char) : Except Fault (List Char) :=
  match skipBlank cs with
  | [] => .error (.next .endInList [])
  | ']' :: cs => .ok cs
  | ',' :: cs =>
      match skipBlank cs with
      | ']' :: cs => .error (.next .trailingComma (']' :: cs))
      | cs => .error (.next .trailingCharacters cs)
  | cs => .error (.next .trailingCharacters cs)

/-- The fields in their order, up to the bracket that closes the list. -/
def readInOrder (depth : Nat) : List (Field σ) → Bool → σ → List Char →
    Except Fault (σ × List Char)
  | [], _, s, cs => do return (s, ← expectListEnd cs)
  | f :: fs, isFirst, s, cs => do
      match ← nextItem isFirst cs with
      | (none, cs) => return (s, cs)
      | (some cs, _) =>
        let (s, cs) ← f.read depth s cs
        readInOrder depth fs false s cs

/-- How many fields there are, as a message says it. -/
def lengthText (shape : Shape σ α) : String :=
  let n := shape.fields.length
  shape.name ++ " with " ++ toString n ++ (if n = 1 then " element" else " elements")

/-- In a list, a missing field is a matter of length. -/
def asLength (shape : Shape σ α) : Mismatch → Mismatch
  | .missingField name => .wrongLength (shape.fields.findIdx (·.name == name)) shape.lengthText
  | m => m

/-- A record. -/
def read (shape : Shape σ α) (depth : Nat) (cs : List Char) : Except Fault (α × List Char) :=
  match skipBlank cs with
  | [] => .error (.next .endInValue [])
  | '[' :: cs =>
      if depth ≤ 1 then .error (.next .tooDeep ('[' :: cs))
      else do
        let (s, cs) ← (readInOrder (depth - 1) shape.fields true shape.start cs).mapError
          (Fault.settle closeList)
        match shape.build s with
        | .ok a => return (a, cs)
        | .error m => throw (.here (.mismatch (shape.asLength m)) cs)
  | '\x7b' :: cs =>
      if depth ≤ 1 then .error (.next .tooDeep ('\x7b' :: cs))
      else do
        let (s, cs) ←
          (readMembers shape.fields (depth - 1) (cs.length + 1) true shape.start cs).mapError
            (Fault.settle closeObject)
        match shape.build s with
        | .ok a => return (a, cs)
        | .error m => throw (.here (.mismatch m) cs)
  | cs => .error (wrongTypeAt shape.name cs)

end Shape

/-- A field that has no value yet has not been given. -/
def required {α : Type} (name : String) : Option α → Except Mismatch α
  | some a => .ok a
  | none => .error (.missingField name)

end MerkleStore.Json
