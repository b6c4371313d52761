import CircuitSynthesis.Numerals

/-!
# Decimal digits of a positive fraction

A positive number is given as `num / den`. `rounded` writes it with a given number of significant digits, a half going
to the even neighbour. `shortest` finds the fewest digits that lie in an interval around it: it walks the decimal grids
from the coarsest and takes, on the first one that meets the interval, the grid point nearest to the number.

These are the digits with which an `f64` is formatted: `rounded` where a precision is given, `shortest` where none is.
-/

namespace CircuitSynthesis.Decimal

/-- Decimal digits `d` and a point position `e`, meaning `0.d₁d₂… · 10 ^ e`. -/
structure Digits where
  /-- The digits as a number; its first digit is not zero unless the number is. -/
  mantissa : Nat
  /-- How many digits there are. -/
  count : Nat
  /-- The position of the point, counted from before the first digit. -/
  point : Int
  deriving DecidableEq

/-- The quotient rounded to the nearest integer, a half going to the even one. -/
def roundDiv (num den : Nat) : Nat :=
  let q := num / den
  let r := num % den
  if den < 2 * r || (2 * r == den && q % 2 == 1) then q + 1 else q

/-- How many decimal digits a number has. -/
def digitCount (n : Nat) : Nat := (Nat.toDigits 10 n).length

/-- The least `e` with `num / den < 10 ^ e`, for a positive fraction. -/
def pointOf (num den : Nat) : Int :=
  if den ≤ num then digitCount (num / den)
  else 1 - (digitCount ((den - 1) / num) : Int)

/-- The fraction scaled by a power of ten. -/
def scaleTen (num den : Nat) (e : Int) : Nat × Nat :=
  if 0 ≤ e then (num * 10 ^ e.toNat, den) else (num, den * 10 ^ (-e).toNat)

/-- A positive fraction with `count` significant digits. -/
def rounded (num den count : Nat) : Digits :=
  let point := pointOf num den
  let (a, b) := scaleTen num den (count - point)
  let mantissa := roundDiv a b
  if mantissa = 10 ^ count then ⟨10 ^ (count - 1), count, point + 1⟩ else ⟨mantissa, count, point⟩

/-- A closed or open interval of fractions `lowNum / den` to `highNum / den` around `num / den`. -/
structure Around where
  lowNum : Nat
  num : Nat
  highNum : Nat
  den : Nat
  /-- Whether the ends belong to the interval. -/
  closed : Bool

/-- Whether `a / b` lies in the interval. -/
def Around.contains (w : Around) (a b : Nat) : Bool :=
  if w.closed then w.lowNum * b ≤ a * w.den && a * w.den ≤ w.highNum * b
  else w.lowNum * b < a * w.den && a * w.den < w.highNum * b

/-- The nearest point of the interval on the grid of `count` significant digits, if there is one. -/
def Around.gridPoint? (w : Around) (point : Int) (count : Nat) : Option Nat :=
  let e := point - count
  let inside (d : Nat) := let (a, b) := scaleTen d 1 e; w.contains a b
  let (a, b) := scaleTen w.num w.den (-e)
  let below := a / b
  let first := roundDiv a b
  let second := if first = below then below + 1 else below
  if inside first then some first else if inside second then some second else none

/-- Strips trailing zeros from digits, all but one of them at most. -/
def trim : Nat → Digits → Digits
  | 0, d => d
  | fuel + 1, d => if 1 < d.count ∧ d.mantissa % 10 = 0 then trim fuel ⟨d.mantissa / 10, d.count - 1, d.point⟩ else d

/-- The fewest digits in the interval, and of those the nearest to the number. -/
def Around.shortest (w : Around) : Digits :=
  let point := pointOf w.num w.den
  let pick (count : Nat) : Option Digits := (w.gridPoint? point count).map fun d =>
    if d = 10 ^ count then ⟨10 ^ (count - 1), count, point + 1⟩ else ⟨d, count, point⟩
  -- from the coarsest grid on; seventeen digits tell any two numbers apart
  let found := ((List.range 17).findSome? fun i => pick (i + 1)).getD (rounded w.num w.den 17)
  trim 17 found

/-- The text of a number padded with zeros in front. -/
def padLeft (width n : Nat) : String :=
  let text := toString n
  String.ofList (List.replicate (width - text.length) '0') ++ text

def Digits.text (d : Digits) : String := padLeft d.count d.mantissa

/-- Digits written around a point, with neither a trailing point nor an exponent. -/
def Digits.positional (d : Digits) : String :=
  let text := d.text.toList
  if d.point ≤ 0 then "0." ++ String.ofList (List.replicate (-d.point).toNat '0' ++ text)
  else
    let p := d.point.toNat
    if d.count ≤ p then String.ofList (text ++ List.replicate (p - d.count) '0')
    else String.ofList (text.take p ++ '.' :: text.drop p)

/-- Digits written with one digit before the point and an exponent. -/
def Digits.exponential (d : Digits) : String :=
  let text := d.text.toList
  let mantissa := if d.count ≤ 1 then text else text.take 1 ++ '.' :: text.drop 1
  String.ofList mantissa ++ "e" ++ toString (d.point - 1)

end CircuitSynthesis.Decimal
