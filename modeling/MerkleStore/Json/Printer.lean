import MerkleStore.Decimal
import MerkleStore.Hex
import MerkleStore.Json.Value

/-!
# Writing JSON

Two layouts: `compact` writes no blank space at all, `pretty` a line for every
element and every member, two spaces further in than what holds it. Only quotes,
backslashes and control characters are escaped.
-/

namespace MerkleStore.Json

/-- A character inside a text. -/
def escape (c : Char) : List Char :=
  if c = '"' then ['\\', '"']
  else if c = '\\' then ['\\', '\\']
  else if c = '\x08' then ['\\', 'b']
  else if c = '\x0c' then ['\\', 'f']
  else if c = '\n' then ['\\', 'n']
  else if c = '\r' then ['\\', 'r']
  else if c = '\t' then ['\\', 't']
  else if c < ' ' then
    ['\\', 'u', '0', '0', Hex.digit (c.toNat / 16), Hex.digit (c.toNat % 16)]
  else [c]

/-- A text in quotes. -/
def textChars (s : String) : List Char := '"' :: s.toList.flatMap escape ++ ['"']

/-- An integer in decimal. -/
def integerChars : Int → List Char
  | .ofNat n => Nat.toDigits 10 n
  | .negSucc n => '-' :: Nat.toDigits 10 (n + 1)

def Number.chars : Number → List Char
  | .integer n => integerChars n
  | .real x => x.text.toList

def booleanChars (b : Bool) : List Char := if b then "true".toList else "false".toList

namespace Value

mutual

/-- A value without blank space. -/
def compactChars : Value → List Char
  | null => "null".toList
  | boolean b => booleanChars b
  | number n => n.chars
  | text s => textChars s
  | array [] => ['[', ']']
  | array (v :: vs) => '[' :: compactChars v ++ compactItems vs
  | object [] => ['\x7b', '\x7d']
  | object ((name, v) :: members) =>
      '\x7b' :: textChars name ++ ':' :: compactChars v ++ compactMembers members

/-- The further elements of a list and its end. -/
def compactItems : List Value → List Char
  | [] => [']']
  | v :: vs => ',' :: compactChars v ++ compactItems vs

/-- The further members of an object and its end. -/
def compactMembers : List (String × Value) → List Char
  | [] => ['\x7d']
  | (name, v) :: members =>
      ',' :: textChars name ++ ':' :: compactChars v ++ compactMembers members

end

/-- A value without blank space. -/
def compact (v : Value) : String := String.ofList v.compactChars

/-- The start of a line. -/
def newLine (depth : Nat) : List Char := '\n' :: List.replicate (2 * depth) ' '

mutual

/-- A value with a line for everything in it, inside `depth` others. -/
def prettyChars (depth : Nat) : Value → List Char
  | null => "null".toList
  | boolean b => booleanChars b
  | number n => n.chars
  | text s => textChars s
  | array [] => ['[', ']']
  | array (v :: vs) =>
      '[' :: newLine (depth + 1) ++ prettyChars (depth + 1) v ++ prettyItems depth vs
  | object [] => ['\x7b', '\x7d']
  | object ((name, v) :: members) =>
      '\x7b' :: newLine (depth + 1) ++ textChars name ++ ':' :: ' ' ::
        prettyChars (depth + 1) v ++ prettyMembers depth members

/-- The further elements of a list and its end. -/
def prettyItems (depth : Nat) : List Value → List Char
  | [] => newLine depth ++ [']']
  | v :: vs =>
      ',' :: newLine (depth + 1) ++ prettyChars (depth + 1) v ++ prettyItems depth vs

/-- The further members of an object and its end. -/
def prettyMembers (depth : Nat) : List (String × Value) → List Char
  | [] => newLine depth ++ ['\x7d']
  | (name, v) :: members =>
      ',' :: newLine (depth + 1) ++ textChars name ++ ':' :: ' ' ::
        prettyChars (depth + 1) v ++ prettyMembers depth members

end

/-- A value with a line for everything in it. -/
def pretty (v : Value) : String := String.ofList (v.prettyChars 0)

/-- An object with its members in the order of their names. -/
def sorted (members : List (String × Value)) : Value :=
  object (members.mergeSort fun a b => a.1 ≤ b.1)

end Value

end MerkleStore.Json
