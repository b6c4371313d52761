/-!
# Numbers as decimal text

`DecimalText R` is what a report or a record needs of a scalar type: reading the number nearest to a decimal, and the
five ways in which numbers are written.

The forms are those in which the errors of `qsynth-compile` and the reports, listings and records of `qsynth-cli`
format an `f64`.
-/

namespace CircuitSynthesis

/-- Reading and writing numbers in decimal. -/
class DecimalText (R : Type) where
  /-- The number nearest to `m · 10 ^ e`, negated if asked. -/
  ofDecimal (negative : Bool) (m : Nat) (e : Int) : R
  /-- The fewest digits that read back, without an exponent. -/
  plain : R → String
  /-- The fewest digits that read back, with an exponent. -/
  exponential : R → String
  /-- The fewest digits that read back, always marked as a fraction or by an exponent; the exponent is used outside
  `10 ^ -5` to `10 ^ 16`. -/
  compact : R → String
  /-- A given number of digits after the point. -/
  fixed : Nat → R → String
  /-- One digit before the point, a given number after it, and an exponent. -/
  scientific : Nat → R → String

namespace DecimalText

def ofInt {R : Type} [DecimalText R] (i : Int) : R := ofDecimal (i < 0) i.natAbs 0

/-- Fixed digits with a sign in front of every number that is not negative. -/
def signedFixed {R : Type} [DecimalText R] (places : Nat) (x : R) : String :=
  let text := fixed places x
  if text.startsWith "-" || text == "NaN" then text else "+" ++ text

end DecimalText

end CircuitSynthesis
