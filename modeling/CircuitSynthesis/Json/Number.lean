import CircuitSynthesis.Json.Value

/-!
# Numbers in JSON

`Numeral.read?` is the grammar: no leading zeros, and a digit on each side of a point. `Numeral.value?` gives the number.
A numeral without fraction and exponent is an integer if it has at most 64 bits. Any other is computed from a significand
of 64 bits and a power of ten in one multiplication or a few divisions, so it can be off by the last place; digits that
do not fit into the significand only shift the power.

These are the numbers that `serde_json` reads, and what it makes of them.
-/

namespace CircuitSynthesis.Json

/-- A number as it is written. -/
structure Numeral where
  negative : Bool
  whole : List Char
  /-- The digits after the point, if there is one. -/
  places : Option (List Char)
  /-- The power of ten, if one is written. -/
  exponent : Option Int
  deriving DecidableEq

namespace Numeral

def digitValue (c : Char) : Nat := c.toNat - '0'.toNat

def digitsValue (digits : List Char) : Nat := digits.foldl (fun n c => n * 10 + digitValue c) 0

/-- The digits in front, of which there must be one at least, and what follows them. -/
def digits? (cs : List Char) : Option (List Char × List Char) :=
  match cs.span Char.isDigit with
  | ([], _) => none
  | split => some split

/-- The power of ten of a number, if one is written. -/
def exponent? (cs : List Char) : Option (Option Int × List Char) :=
  match cs with
  | e :: rest =>
    if e == 'e' || e == 'E' then do
      let (negative, rest) := match rest with
        | '+' :: rest => (false, rest)
        | '-' :: rest => (true, rest)
        | _ => (false, rest)
      let (digits, rest) ← digits? rest
      let value : Int := digitsValue digits
      return (some (if negative then -value else value), rest)
    else some (none, cs)
  | [] => some (none, [])

/-- The digits after the point of a number, if there is one. -/
def places? (cs : List Char) : Option (Option (List Char) × List Char) :=
  match cs with
  | '.' :: rest => do
    let (digits, rest) ← digits? rest
    return (some digits, rest)
  | _ => some (none, cs)

/-- The numeral at the front of a text. -/
def read? (cs : List Char) : Option (Numeral × List Char) := do
  let (negative, cs) := match cs with
    | '-' :: rest => (true, rest)
    | _ => (false, cs)
  let (whole, rest) ← digits? cs
  match whole with
  | '0' :: _ :: _ => none
  | _ =>
    let (places, rest) ← places? rest
    let (exponent, rest) ← exponent? rest
    return (⟨negative, whole, places, exponent⟩, rest)

/-- Appends digits to a significand until one of them would take it beyond 64 bits. The digits from there on are left. -/
def absorb (significand : Nat) : List Char → Nat × List Char
  | [] => (significand, [])
  | c :: rest =>
    let next := significand * 10 + digitValue c
    if next < 2 ^ 64 then absorb next rest else (significand, c :: rest)

variable {R : Type} [Scalar R] [DecimalText R]

def powerOfTen (e : Nat) : R := DecimalText.ofDecimal false 1 e

/-- The largest power of ten that is used as a factor. -/
def largestPower : Nat := 308

/-- A number divided by the largest power of ten so often, or until nothing is left of it. -/
def divideLargest (x : R) : Nat → R
  | 0 => x
  | times + 1 => if x == 0 then x else divideLargest (x / powerOfTen largestPower) times

/-- A significand times a power of ten, unless it is too large. -/
def scaled? (significand : Nat) (e : Int) : Option R :=
  let x : R := DecimalText.ofDecimal false significand 0
  if 0 ≤ e then
    if e ≤ largestPower then
      let y := x * powerOfTen e.toNat
      if Scalar.isFinite y then some y else none
    else if x == 0 then some x
    else none
  else
    let times := ((-e).toNat - 1) / largestPower
    some (divideLargest x times / powerOfTen ((-e).toNat - times * largestPower))

/-- The number of a numeral, unless it is too large. -/
def value? (n : Numeral) : Option (Json R) :=
  let (significand, spilled) := absorb 0 n.whole
  let sign (x : R) : R := if n.negative then -x else x
  match n.places, n.exponent, spilled with
  | none, none, [] =>
    if !n.negative then some (int significand)
    else if 0 < significand ∧ significand ≤ 2 ^ 63 then some (int (-(significand : Int)))
    else some (float (sign (DecimalText.ofDecimal false significand 0)))
  | places, exponent, spilled =>
    let places := places.getD []
    let (significand, dropped) := absorb significand places
    let e : Int := exponent.getD 0 + spilled.length - (places.length - dropped.length : Nat)
    (scaled? significand e).map fun x => float (sign x)

end Numeral

end CircuitSynthesis.Json
