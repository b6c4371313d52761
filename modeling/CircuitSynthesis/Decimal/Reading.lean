import CircuitSynthesis.Scalar
import CircuitSynthesis.Decimal.Text

/-!
# Reading numbers

Plain texts that stand for numbers: an optional sign, digits with an optional point, an optional exponent, or the words
for infinity and for no number. Integers are read in a base and below a bound.

These are the texts that `f64`, `u32` and `u64` parse, as `merge_overrides` of `qsynth-compile` uses them.
-/

namespace CircuitSynthesis.Decimal

/-- A text without its sign, and whether the sign is a minus. -/
def splitSign : List Char → Bool × List Char
  | '-' :: rest => (true, rest)
  | '+' :: rest => (false, rest)
  | cs => (false, cs)

/-- The value of a digit in bases up to sixteen. -/
def digit? (c : Char) : Option Nat :=
  if c.isDigit then some (c.toNat - '0'.toNat)
  else if 'a' ≤ c ∧ c ≤ 'f' then some (c.toNat - 'a'.toNat + 10)
  else if 'A' ≤ c ∧ c ≤ 'F' then some (c.toNat - 'A'.toNat + 10)
  else none

/-- A number written with one digit or more of a base. -/
def natural? (base : Nat) (cs : List Char) : Option Nat :=
  if cs.isEmpty then none
  else cs.foldlM (fun n c => do
    let d ← digit? c
    if d < base then return n * base + d else none) 0

/-- A natural number below a bound, with an optional plus sign. -/
def boundedNat? (bound : Nat) (text : String) : Option Nat := do
  let cs := match text.toList with
    | '+' :: rest => rest
    | cs => cs
  let n ← natural? 10 cs
  if n < bound then return n else none

/-- The exponent at the end of a number; nothing may follow it. -/
def exponent? : List Char → Option Int
  | [] => some 0
  | e :: rest =>
    if e == 'e' || e == 'E' then do
      let (negative, digits) := splitSign rest
      let n ← natural? 10 digits
      return if negative then -(n : Int) else n
    else none

/-- The mantissa and the exponent of a number without a sign. -/
def magnitude? (cs : List Char) : Option (Nat × Int) := do
  let (whole, rest) := cs.span Char.isDigit
  let (places, rest) := match rest with
    | '.' :: rest => rest.span Char.isDigit
    | rest => ([], rest)
  let m ← natural? 10 (whole ++ places)
  let e ← exponent? rest
  return (m, e - places.length)

/-- The number that a text stands for, the words for infinity and for no number included. -/
def scalar? {R : Type} [Scalar R] [DecimalText R] (text : String) : Option R :=
  let (negative, cs) := splitSign text.toList
  let word := String.ofList (cs.map Char.toLower)
  if word = "inf" ∨ word = "infinity" then some (if negative then -1 / 0 else 1 / 0)
  else if word = "nan" then some (0 / 0)
  else (magnitude? cs).map fun (m, e) => DecimalText.ofDecimal negative m e

end CircuitSynthesis.Decimal
