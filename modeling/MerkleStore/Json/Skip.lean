import MerkleStore.Json.Scan

/-!
# Passing over a value

A member nobody asked for is only checked for its form: numbers may have any
size, escapes any code, and brackets any depth.
-/

namespace MerkleStore.Json

/-- Passes over an exponent behind its mark. -/
def skipExponent (cs : List Char) : Except Fault (List Char) :=
  let cs :=
    match cs with
    | '+' :: cs | '-' :: cs => cs
    | cs => cs
  match cs with
  | [] => .error (.here .invalidNumber [])
  | c :: cs =>
      if isDigit c then .ok (cs.dropWhile isDigit)
      else .error (.next .invalidNumber (c :: cs))

/-- Passes over what may follow the digits before a point. -/
def skipSuffix : List Char → Except Fault (List Char)
  | '.' :: c :: cs =>
      if isDigit c then
        match cs.dropWhile isDigit with
        | 'e' :: cs | 'E' :: cs => skipExponent cs
        | cs => .ok cs
      else .error (.next .invalidNumber (c :: cs))
  | ['.'] => .error (.next .invalidNumber [])
  | 'e' :: cs | 'E' :: cs => skipExponent cs
  | cs => .ok cs

/-- Passes over a number whose sign has been read. -/
def skipMagnitude : List Char → Except Fault (List Char)
  | [] => .error (.here .invalidNumber [])
  | c :: cs =>
      if c = '0' then
        match cs with
        | d :: _ => if isDigit d then .error (.next .invalidNumber cs) else skipSuffix cs
        | [] => .ok []
      else if isDigit c then skipSuffix (cs.dropWhile isDigit)
      else .error (.next .invalidNumber (c :: cs))

/-- Passes over an escape behind its backslash. -/
def skipEscape : List Char → Except Fault (List Char)
  | [] => .error (.here .endInText [])
  | 'u' :: cs => (readUnit cs).map Prod.snd
  | c :: cs =>
      if c ∈ ['"', '\\', '/', 'b', 'f', 'n', 'r', 't'] then .ok cs
      else .error (.next .invalidEscape (c :: cs))

/-- Passes over a text behind its opening quote. `fuel` bounds its length. -/
def skipTextFrom : Nat → List Char → Except Fault (List Char)
  | 0, _ | _, [] => .error (.here .endInText [])
  | fuel + 1, c :: cs =>
      if c = '"' then .ok cs
      else if c = '\\' then do skipTextFrom fuel (← skipEscape cs)
      else if c < ' ' then .error (.here .controlCharacter (c :: cs))
      else skipTextFrom fuel cs

/-- Passes over a text behind its opening quote. -/
def skipText (cs : List Char) : Except Fault (List Char) := skipTextFrom (cs.length + 1) cs

/-- What is open around a value. -/
inductive Bracket
  | list
  | object
deriving DecidableEq

def Bracket.closer : Bracket → Char
  | list => ']'
  | object => '\x7d'

/-- The text ends before the bracket is closed. -/
def Bracket.atEnd : Bracket → Cause
  | list => .endInList
  | object => .endInObject

/-- Neither a comma nor the closing bracket. -/
def Bracket.atOther : Bracket → Cause
  | list => .expectedListEnd
  | object => .expectedObjectEnd

/-- Passes over the name of a member and its colon. -/
def skipName (cs : List Char) : Except Fault (List Char) := do
  let cs ←
    match skipBlank cs with
    | [] => throw (.next .endInObject [])
    | '"' :: cs => skipText cs
    | cs => throw (.next .nameNotText cs)
  match skipBlank cs with
  | [] => throw (.next .endInObject [])
  | ':' :: cs => return cs
  | cs => throw (.next .expectedColon cs)

mutual

/-- Passes over a value inside open brackets, innermost first, and over all that
closes them. `fuel` bounds the steps. -/
def skipValueIn : Nat → List Bracket → List Char → Except Fault (List Char)
  | 0, _, _ => .error (.next .endInValue [])
  | fuel + 1, open_, cs =>
      match skipBlank cs with
      | [] => .error (.next .endInValue [])
      | 'n' :: cs => do skipOn fuel true open_ (← expectWord "ull".toList cs)
      | 't' :: cs => do skipOn fuel true open_ (← expectWord "rue".toList cs)
      | 'f' :: cs => do skipOn fuel true open_ (← expectWord "alse".toList cs)
      | '-' :: cs => do skipOn fuel true open_ (← skipMagnitude cs)
      | '"' :: cs => do skipOn fuel true open_ (← skipText cs)
      | '[' :: cs => skipOn fuel false (.list :: open_) cs
      | '\x7b' :: cs => skipOn fuel false (.object :: open_) cs
      | c :: cs =>
          if isDigit c then do skipOn fuel true open_ (← skipMagnitude (c :: cs))
          else .error (.next .expectedValue (c :: cs))

/-- Goes on behind a value, or, before the first one, behind an opening bracket. -/
def skipOn : Nat → Bool → List Bracket → List Char → Except Fault (List Char)
  | 0, _, _, _ => .error (.next .endInValue [])
  | _, _, [], cs => .ok cs
  | fuel + 1, isBehindValue, b :: open_, cs =>
      let intoNext (cs : List Char) : Except Fault (List Char) := do
        let cs ← if b = .object then skipName cs else pure cs
        skipValueIn fuel (b :: open_) cs
      match skipBlank cs with
      | [] => .error (.next b.atEnd [])
      | c :: cs =>
          if c = b.closer then skipOn fuel true open_ cs
          else if isBehindValue = false then intoNext (c :: cs)
          else if c = ',' then intoNext cs
          else .error (.next b.atOther (c :: cs))

end

/-- Passes over a value. -/
def skipValue (cs : List Char) : Except Fault (List Char) :=
  skipValueIn (3 * cs.length + 3) [] cs

end MerkleStore.Json
