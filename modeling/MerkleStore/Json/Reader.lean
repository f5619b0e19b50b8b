import MerkleStore.Json.Scan

/-!
# Reading JSON values

Strict JSON with at most 127 brackets open at a time. `parse` reads a whole
text; `readValue` reads a value and leaves what follows it.
-/

namespace MerkleStore.Json

/-- One more than the brackets that may be open at a time. -/
def depthLimit : Nat := 128

/-- The place of the next element of a list, or none behind the closing bracket. -/
def nextItem (isFirst : Bool) (cs : List Char) : Except Fault (Option (List Char) × List Char) :=
  match skipBlank cs with
  | [] => .error (.next .endInList [])
  | ']' :: cs => .ok (none, cs)
  | c :: cs =>
      if isFirst then .ok (some (c :: cs), [])
      else if c = ',' then
        match skipBlank cs with
        | [] => .error (.next .endInValue [])
        | ']' :: cs => .error (.next .trailingComma (']' :: cs))
        | cs => .ok (some cs, [])
      else .error (.next .expectedListEnd (c :: cs))

/-- The place behind the quote of the next name in an object, or none behind the
closing bracket. -/
def nextName (isFirst : Bool) (cs : List Char) : Except Fault (Option (List Char) × List Char) :=
  match skipBlank cs with
  | [] => .error (.next .endInObject [])
  | '\x7d' :: cs => .ok (none, cs)
  | c :: cs =>
      if isFirst then
        if c = '"' then .ok (some cs, []) else .error (.next .nameNotText (c :: cs))
      else if c = ',' then
        match skipBlank cs with
        | [] => .error (.next .endInValue [])
        | '"' :: cs => .ok (some cs, [])
        | '\x7d' :: cs => .error (.next .trailingComma ('\x7d' :: cs))
        | cs => .error (.next .nameNotText cs)
      else .error (.next .expectedObjectEnd (c :: cs))

/-- Passes over the colon behind a name. -/
def skipColon (cs : List Char) : Except Fault (List Char) :=
  match skipBlank cs with
  | [] => .error (.next .endInObject [])
  | ':' :: cs => .ok cs
  | cs => .error (.next .expectedColon cs)

mutual

/-- A value, with fewer than `depth` brackets open inside it. `fuel` bounds the
steps. -/
def readValueFrom : Nat → Nat → List Char → Except Fault (Value × List Char)
  | 0, _, _ => .error (.next .endInValue [])
  | fuel + 1, depth, cs =>
      match skipBlank cs with
      | [] => .error (.next .endInValue [])
      | 'n' :: cs => do return (.null, ← expectWord "ull".toList cs)
      | 't' :: cs => do return (.boolean true, ← expectWord "rue".toList cs)
      | 'f' :: cs => do return (.boolean false, ← expectWord "alse".toList cs)
      | '"' :: cs => do
          let (s, cs) ← readText cs
          return (.text s, cs)
      | '[' :: cs =>
          if depth ≤ 1 then .error (.next .tooDeep ('[' :: cs))
          else do
            let (items, cs) ← readItems fuel (depth - 1) true cs
            return (.array items, cs)
      | '\x7b' :: cs =>
          if depth ≤ 1 then .error (.next .tooDeep ('\x7b' :: cs))
          else do
            let (members, cs) ← readMembers fuel (depth - 1) true cs
            return (.object members, cs)
      | c :: cs =>
          if c = '-' || isDigit c then do
            let (n, cs) ← readNumber (c :: cs)
            return (.number n, cs)
          else .error (.next .expectedValue (c :: cs))

/-- The elements of a list up to its closing bracket. -/
def readItems : Nat → Nat → Bool → List Char → Except Fault (List Value × List Char)
  | 0, _, _, _ => .error (.next .endInList [])
  | fuel + 1, depth, isFirst, cs => do
      match ← nextItem isFirst cs with
      | (none, cs) => return ([], cs)
      | (some cs, _) =>
        let (v, cs) ← readValueFrom fuel depth cs
        let (vs, cs) ← readItems fuel depth false cs
        return (v :: vs, cs)

/-- The members of an object up to its closing bracket. -/
def readMembers : Nat → Nat → Bool → List Char → Except Fault (List (String × Value) × List Char)
  | 0, _, _, _ => .error (.next .endInObject [])
  | fuel + 1, depth, isFirst, cs => do
      match ← nextName isFirst cs with
      | (none, cs) => return ([], cs)
      | (some cs, _) =>
        let (name, cs) ← readText cs
        let cs ← skipColon cs
        let (v, cs) ← readValueFrom fuel depth cs
        let (vs, cs) ← readMembers fuel depth false cs
        return ((name, v) :: vs, cs)

end

/-- A value, with fewer than `depth` brackets open inside it. -/
def readValue (depth : Nat) (cs : List Char) : Except Fault (Value × List Char) :=
  readValueFrom (2 * cs.length + 2) depth cs

/-- Only blank space is left. -/
def expectEnd (cs : List Char) : Except Fault Unit :=
  match skipBlank cs with
  | [] => .ok ()
  | cs => .error (.next .trailingCharacters cs)

/-- Reads a whole text with a reader that leaves what it did not read. -/
def parseWith {α : Type} (read : List Char → Except Fault (α × List Char)) (text : String) :
    Except Error α :=
  let cs := text.toList
  let result : Except Fault α := do
    let (a, rest) ← read cs
    expectEnd rest
    return a
  result.mapError (Fault.toError cs)

/-- The value a text holds. -/
def parse (text : String) : Except Error Value := parseWith (readValue depthLimit) text

end MerkleStore.Json
