/-!
# Binary64 numbers

Finite numbers with a significand of fifty-three bits, kept as whole numbers so
that every step on them is exact: rounding a fraction to the nearest number
(`ofRatio?`), products and quotients, and the shortest decimal text that is
read back as the same number (`text`).
-/

namespace MerkleStore

/-- The number `significand · 2 ^ exponent / 2 ^ 1074`, with its sign. -/
structure Binary64 where
  isNegative : Bool
  significand : Nat
  exponent : Nat
deriving DecidableEq

namespace Binary64

/-- The denominator all numbers share. -/
def unit : Nat := Nat.pow 2 1074

/-- The magnitude in units. -/
def magnitude (x : Binary64) : Nat := x.significand * Nat.pow 2 x.exponent

/-- A quotient rounded to the nearest whole number, a tie to the even one. -/
def roundDiv (num den : Nat) : Nat :=
  let q := num / den
  let twice := 2 * (num % den)
  if twice < den then q
  else if twice = den then q + q % 2
  else q + 1

/-- The number nearest to a fraction; none where it would be infinite. -/
def ofRatio? (isNegative : Bool) (num den : Nat) : Option Binary64 :=
  let scaled := num * unit
  let exponent := (scaled / den).log2 - 52
  let significand := roundDiv scaled (den * Nat.pow 2 exponent)
  let x : Binary64 :=
    if significand = Nat.pow 2 53 then ⟨isNegative, Nat.pow 2 52, exponent + 1⟩
    else ⟨isNegative, significand, exponent⟩
  if x.exponent ≤ 2045 then some x else none

def zero (isNegative : Bool) : Binary64 := ⟨isNegative, 0, 0⟩

def isZero (x : Binary64) : Bool := x.significand == 0

/-- The product with a whole number. -/
def mul? (x : Binary64) (n : Nat) : Option Binary64 :=
  ofRatio? x.isNegative (x.magnitude * n) unit

/-- The quotient by a whole number. -/
def div? (x : Binary64) (n : Nat) : Option Binary64 :=
  ofRatio? x.isNegative x.magnitude (unit * n)

/-! ### Shortest text -/

/-- Decimal digits `digits · 10 ^ exponent`. -/
structure Decimal where
  digits : Nat
  exponent : Int

/-- The least `k` with `num < den · 10 ^ k`, for a fraction that is not zero;
`fuel` bounds the steps up from the start. -/
def decimalPoint (num den : Nat) : Nat → Int → Int
  | 0, k => k
  | fuel + 1, k =>
      let isBelow :=
        if 0 ≤ k then num < den * Nat.pow 10 k.toNat else num * Nat.pow 10 (-k).toNat < den
      if isBelow then k else decimalPoint num den fuel (k + 1)

/-- The digits nearest to `x` among those with `count` digits that are read back
as `x`, if there are any. `point` is the place of the decimal point. -/
def shortestOf? (x : Binary64) (point : Int) (count : Nat) : Option Decimal :=
  let exponent := point - count
  let up := (max 0 (-exponent)).toNat
  let down := (max 0 exponent).toNat
  -- all in quarters of the unit in the last place, on the scale of the grid
  let value := 4 * x.magnitude * Nat.pow 10 up
  let step := 4 * unit * Nat.pow 10 down
  let half := 2 * Nat.pow 2 x.exponent * Nat.pow 10 up
  let below := if x.significand = Nat.pow 2 52 ∧ 0 < x.exponent then half / 2 else half
  let isEnd := x.significand % 2 = 0
  let fits (d : Nat) : Bool :=
    let point := d * step
    if point ≤ value then
      decide (value - point < below) || (isEnd && value - point == below)
    else decide (point - value < half) || (isEnd && point - value == half)
  let lower := value / step
  let upper := lower + 1
  let isLowerNearer := value - lower * step ≤ upper * step - value
  match fits lower, fits upper with
  | true, true => some ⟨if isLowerNearer then lower else upper, exponent⟩
  | true, false => some ⟨lower, exponent⟩
  | false, true => some ⟨upper, exponent⟩
  | false, false => none

/-- The first count of digits, from `count` on, that has digits for `x`. -/
def shortestFrom (x : Binary64) (point : Int) : Nat → Nat → Decimal
  | 0, _ => ⟨0, 0⟩
  | fuel + 1, count =>
      match shortestOf? x point count with
      | some d => d
      | none => shortestFrom x point fuel (count + 1)

/-- Zeros at the end of the digits moved into the exponent. -/
def Decimal.trim : Nat → Decimal → Decimal
  | 0, d => d
  | fuel + 1, d =>
      if d.digits ≠ 0 ∧ d.digits % 10 = 0 then Decimal.trim fuel ⟨d.digits / 10, d.exponent + 1⟩
      else d

/-- The fewest digits that are read back as `x`, for `x` other than zero. -/
def shortest (x : Binary64) : Decimal :=
  let point := decimalPoint x.magnitude unit 640 (-324)
  (shortestFrom x point 17 1).trim 17

/-- Digits in positional notation while the point lies near them, otherwise
with an exponent, which shows its sign. -/
def Decimal.text (d : Decimal) : String :=
  let digits := Nat.toDigits 10 d.digits
  let point : Int := digits.length + d.exponent
  let zeros (n : Nat) : List Char := List.replicate n '0'
  String.ofList <|
    if 0 ≤ d.exponent ∧ point ≤ 16 then digits ++ zeros d.exponent.toNat ++ ['.', '0']
    else if 0 < point ∧ point ≤ 16 then
      digits.take point.toNat ++ ['.'] ++ digits.drop point.toNat
    else if -5 < point ∧ point ≤ 0 then ['0', '.'] ++ zeros (-point).toNat ++ digits
    else
      let mark := 'e' :: (if 0 < point then ['+'] else []) ++ (toString (point - 1)).toList
      match digits with
      | [d] => d :: mark
      | d :: ds => d :: '.' :: ds ++ mark
      | [] => mark

/-- The shortest text of a number. -/
def text (x : Binary64) : String :=
  (if x.isNegative then "-" else "") ++ if x.isZero then "0.0" else x.shortest.text

end Binary64

end MerkleStore
