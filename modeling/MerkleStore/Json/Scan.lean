import MerkleStore.Json.Error

/-!
# The words of a JSON text

Readers for what a text is made of: blank space, words, numbers and texts. Each
takes the characters from where it stands and gives what it read and the
characters that follow, or the fault that stopped it.
-/

namespace MerkleStore.Json

/-- Blank space between words. -/
def isBlank (c : Char) : Bool := c == ' ' || c == '\n' || c == '\t' || c == '\r'

/-- The characters after blank space. -/
def skipBlank (cs : List Char) : List Char := cs.dropWhile isBlank

/-- The characters after the given ones. -/
def expectWord : List Char → List Char → Except Fault (List Char)
  | [], cs => .ok cs
  | _ :: _, [] => .error (.here .endInValue [])
  | w :: ws, c :: cs => if c = w then expectWord ws cs else .error (.next .expectedWord (c :: cs))

/-! ### Numbers -/

def isDigit (c : Char) : Bool := '0' ≤ c && c ≤ '9'

/-- The value of a character that is a digit. -/
def digitValue (c : Char) : Nat := c.toNat - 48

/-- Whole numbers stay below this bound. -/
def wordBound : Nat := Nat.pow 2 64

/-- Takes digits into a number while it stays below the bound; the count is of
the digits left out. -/
def accumulate : Nat → List Char → Nat × Nat
  | n, [] => (n, 0)
  | n, c :: cs =>
      let next := 10 * n + digitValue c
      if next < wordBound then accumulate next cs else (n, cs.length + 1)

/-- The powers of ten that are numbers of their own. -/
def powerOfTen? (k : Nat) : Option Binary64 :=
  if k ≤ 308 then Binary64.ofRatio? false (Nat.pow 10 k) 1 else none

/-- Divides by powers of ten, at most `10 ^ 308` at a time. -/
def scaleDown : Nat → Binary64 → Nat → Option Binary64
  | 0, x, _ => some x
  | fuel + 1, x, k =>
      match powerOfTen? k with
      | some p => Binary64.ofRatio? x.isNegative x.magnitude p.magnitude
      | none =>
        if x.isZero then some x
        else do
          let p ← powerOfTen? 308
          scaleDown fuel (← Binary64.ofRatio? x.isNegative x.magnitude p.magnitude) (k - 308)

/-- The number `significand · 10 ^ exponent`, rounded first as a significand and
again when it is scaled. -/
def real? (isNegative : Bool) (significand : Nat) (exponent : Int) : Option Binary64 := do
  let x ← Binary64.ofRatio? isNegative significand 1
  if exponent < 0 then scaleDown 8 x exponent.natAbs
  else if x.isZero then some x
  else do
    let p ← powerOfTen? exponent.toNat
    Binary64.ofRatio? isNegative (x.magnitude * p.magnitude) (Binary64.unit * Binary64.unit)

/-- A number that is no integer, in front of `rest`. -/
def realAt (isNegative : Bool) (significand : Nat) (exponent : Int) (rest : List Char) :
    Except Fault (Number × List Char) :=
  match real? isNegative significand exponent with
  | some x => .ok (.real x, rest)
  | none => .error (.here .numberOutOfRange rest)

/-- Goes on with the digits of an exponent that has reached `n`; stops behind the
digit that carries it past thirty-one bits. -/
def readExponentDigits : Nat → List Char → Except (List Char) (Nat × List Char)
  | n, [] => .ok (n, [])
  | n, c :: cs =>
      if isDigit c then
        let next := 10 * n + digitValue c
        if next < Nat.pow 2 31 then readExponentDigits next cs else .error cs
      else .ok (n, c :: cs)

/-- The exponent behind its mark; `start` is what the digits already moved it by. -/
def readExponent (isNegative : Bool) (significand : Nat) (start : Int) (cs : List Char) :
    Except Fault (Number × List Char) :=
  let (isDown, cs) :=
    match cs with
    | '+' :: cs => (false, cs)
    | '-' :: cs => (true, cs)
    | cs => (false, cs)
  match cs with
  | [] => .error (.here .endInValue [])
  | c :: cs =>
      if isDigit c then
        match readExponentDigits (digitValue c) cs with
        | .ok (n, rest) =>
            realAt isNegative significand (if isDown then start - n else start + n) rest
        | .error rest =>
            if significand ≠ 0 ∧ isDown = false then .error (.here .numberOutOfRange rest)
            else .ok (.real (.zero isNegative), rest.dropWhile isDigit)
      else .error (.next .invalidNumber (c :: cs))

/-- The digits behind the point. -/
def readFraction (isNegative : Bool) (significand : Nat) (start : Int) (cs : List Char) :
    Except Fault (Number × List Char) :=
  let digits := cs.takeWhile isDigit
  match digits, cs.dropWhile isDigit with
  | [], [] => .error (.next .endInValue [])
  | [], rest => .error (.next .invalidNumber rest)
  | _, rest =>
    let (significand, leftOut) := accumulate significand digits
    let exponent := start - (digits.length - leftOut : Nat)
    match rest with
    | 'e' :: cs | 'E' :: cs => readExponent isNegative significand exponent cs
    | rest => realAt isNegative significand exponent rest

/-- An integer if it has a sign and a size that fit sixty-four bits. -/
def whole (isNegative : Bool) (n : Nat) : Option Number :=
  if isNegative = false then some (.integer n)
  else if 0 < n ∧ n ≤ Nat.pow 2 63 then some (.integer (-n))
  else none

/-- What may follow the digits before the point. -/
def readSuffix (isNegative : Bool) (significand leftOut : Nat) (cs : List Char) :
    Except Fault (Number × List Char) :=
  match cs with
  | '.' :: cs => readFraction isNegative significand leftOut cs
  | 'e' :: cs | 'E' :: cs => readExponent isNegative significand leftOut cs
  | cs =>
      match if leftOut = 0 then whole isNegative significand else none with
      | some n => .ok (n, cs)
      | none => realAt isNegative significand leftOut cs

/-- A number whose sign has been read. -/
def readMagnitude (isNegative : Bool) : List Char → Except Fault (Number × List Char)
  | [] => .error (.here .endInValue [])
  | c :: cs =>
      if c = '0' then
        match cs with
        | d :: _ =>
            if isDigit d then .error (.next .invalidNumber cs)
            else readSuffix isNegative 0 0 cs
        | [] => readSuffix isNegative 0 0 []
      else if isDigit c then
        let (significand, leftOut) := accumulate 0 ((c :: cs).takeWhile isDigit)
        readSuffix isNegative significand leftOut (cs.dropWhile isDigit)
      else .error (.next .invalidNumber (c :: cs))

/-- A number. -/
def readNumber : List Char → Except Fault (Number × List Char)
  | '-' :: cs => readMagnitude true cs
  | cs => readMagnitude false cs

/-! ### Texts -/

/-- Four hexadecimal digits. -/
def readUnit (cs : List Char) : Except Fault (Nat × List Char) :=
  let digits := cs.take 4
  match digits.mapM Hex.digitValue? with
  | some [a, b, c, d] => .ok (((a * 16 + b) * 16 + c) * 16 + d, cs.drop 4)
  | _ =>
      if Hex.utf8Length digits < 4 then .error (.here .endInText [])
      else .error ⟨.invalidEscape, cs, some 4⟩

/-- The second half of a pair of units, behind the first half `high`. -/
def readLowHalf (high : Nat) : List Char → Except Fault (Char × List Char)
  | [] | ['\\'] => .error (.here .endInText [])
  | '\\' :: 'u' :: cs => do
      let (low, cs) ← readUnit cs
      if 0xdc00 ≤ low ∧ low ≤ 0xdfff then
        return (Char.ofNat (0x10000 + (high - 0xd800) * 0x400 + (low - 0xdc00)), cs)
      else throw (.here .loneSurrogate cs)
  | '\\' :: cs => .error (.next .unfinishedPair cs)
  | cs => .error (.next .unfinishedPair cs)

/-- The character an escape stands for, behind its backslash. -/
def readEscape : List Char → Except Fault (Char × List Char)
  | [] => .error (.here .endInText [])
  | '"' :: cs => .ok ('"', cs)
  | '\\' :: cs => .ok ('\\', cs)
  | '/' :: cs => .ok ('/', cs)
  | 'b' :: cs => .ok ('\x08', cs)
  | 'f' :: cs => .ok ('\x0c', cs)
  | 'n' :: cs => .ok ('\n', cs)
  | 'r' :: cs => .ok ('\r', cs)
  | 't' :: cs => .ok ('\t', cs)
  | 'u' :: cs => do
      let (n, cs) ← readUnit cs
      if 0xdc00 ≤ n ∧ n ≤ 0xdfff then throw (.here .loneSurrogate cs)
      else if 0xd800 ≤ n ∧ n ≤ 0xdbff then readLowHalf n cs
      else return (Char.ofNat n, cs)
  | cs => .error (.next .invalidEscape cs)

/-- A text behind its opening quote. `fuel` bounds its length. -/
def readTextFrom : Nat → List Char → Except Fault (List Char × List Char)
  | 0, _ | _, [] => .error (.here .endInText [])
  | fuel + 1, c :: cs =>
      if c = '"' then .ok ([], cs)
      else if c = '\\' then do
        let (c, cs) ← readEscape cs
        let (s, cs) ← readTextFrom fuel cs
        return (c :: s, cs)
      else if c < ' ' then .error (.here .controlCharacter cs)
      else do
        let (s, cs) ← readTextFrom fuel cs
        return (c :: s, cs)

/-- A text behind its opening quote. -/
def readText (cs : List Char) : Except Fault (String × List Char) := do
  let (s, cs) ← readTextFrom (cs.length + 1) cs
  return (String.ofList s, cs)

end MerkleStore.Json
