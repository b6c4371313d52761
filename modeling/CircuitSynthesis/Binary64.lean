import CircuitSynthesis.Scalar
import CircuitSynthesis.Decimal.Text
import CircuitSynthesis.Decimal.Digits

/-!
# Binary floating point

`Float` as a scalar, and its text. A number is decoded into an exact fraction before it is written, so every digit is
found by arithmetic on natural numbers.

The number type is `f64`, with the texts of its formatting and what it parses.
-/

namespace CircuitSynthesis

namespace Binary64

/-- From this length on squares may overflow. -/
def largeLength : Float := 1e150

/-- Below this length squares may vanish. -/
def smallLength : Float := 1e-140

/-- What brings large lengths down. -/
def shrink : Float := 1e-200

/-- What brings small lengths up. -/
def grow : Float := 1e200

/-- The hypotenuse, computed at a scale where the squares neither overflow nor vanish. -/
def hypot (x y : Float) : Float :=
  let a := x.abs
  let b := y.abs
  let m := if a < b then b else a
  if a.isInf || b.isInf then 1.0 / 0.0
  else if m > largeLength then scaled a b shrink grow
  else if m < smallLength then scaled a b grow shrink
  else (a * a + b * b).sqrt
where
  /-- The hypotenuse at another scale. -/
  scaled (a b factor back : Float) : Float :=
    let u := a * factor
    let v := b * factor
    (u * u + v * v).sqrt * back

def signBit (x : Float) : Bool := x.toBits >>> 63 == 1

end Binary64

instance : Scalar Float where
  zero := 0.0
  one := 1.0
  natCast n := Float.ofNat n
  decideLt := inferInstance
  decideLe := inferInstance
  pi := 3.141592653589793
  sqrt := Float.sqrt
  abs := Float.abs
  sin := Float.sin
  cos := Float.cos
  atan2 := Float.atan2
  hypot := Binary64.hypot
  floor := Float.floor
  round := Float.round
  isFinite := Float.isFinite
  signBit := Binary64.signBit

namespace Binary64

/-- What a bit pattern stands for. -/
inductive Value where
  | nan
  | infinite (negative : Bool)
  /-- The number `m · 2 ^ q`. The spacing to the next smaller magnitude is halved at the `edge` of a binade. -/
  | finite (negative : Bool) (m : Nat) (q : Int) (edge : Bool)

/-- The value of a bit pattern. -/
def decode (x : Float) : Value :=
  let bits := x.toBits.toNat
  let negative := bits / 2 ^ 63 == 1
  let exponent : Nat := bits / 2 ^ 52 % 2 ^ 11
  let fraction : Nat := bits % 2 ^ 52
  -- the exponent field is all ones beyond the finite numbers and zero below the normal ones
  if exponent = 2047 then if fraction = 0 then .infinite negative else .nan
  else if exponent = 0 then .finite negative fraction (-1074) false
  else .finite negative (fraction + 2 ^ 52) ((exponent : Int) - 1075) (fraction == 0 && exponent != 1)

/-- A magnitude `m · 2 ^ q` as a fraction. -/
def fraction (m : Nat) (q : Int) : Nat × Nat := if 0 ≤ q then (m * 2 ^ q.toNat, 1) else (m, 2 ^ (-q).toNat)

/-- The interval of numbers that are read as `m · 2 ^ q`. -/
def around (m : Nat) (q : Int) (edge : Bool) : Decimal.Around :=
  -- in quarters of the spacing, so that half of the smaller spacing below an edge is still whole
  let (num, den) := fraction (4 * m) (q - 2)
  let (unit, _) := fraction 1 (q - 2)
  ⟨num - (if edge then unit else 2 * unit), num, num + 2 * unit, den, m % 2 == 0⟩

def signText (negative : Bool) : String := if negative then "-" else ""

/-- Writes a value, given how a positive magnitude is written and how zero is. -/
def write (zero : String) (positive : Nat → Int → Bool → String) (x : Float) : String :=
  match decode x with
  | .nan => "NaN"
  | .infinite negative => signText negative ++ "inf"
  | .finite negative m q edge => signText negative ++ (if m = 0 then zero else positive m q edge)

/-- The digits of a magnitude in the compact form: a point is always shown where there is no exponent. -/
def compactText (d : Decimal.Digits) : String :=
  if d.point ≤ -5 ∨ 16 < d.point then d.exponential
  else if (d.count : Int) ≤ d.point then d.positional ++ ".0"
  else d.positional

/-- A magnitude with a fixed number of digits after the point. -/
def fixedText (places : Nat) (m : Nat) (q : Int) : String :=
  let (num, den) := fraction m q
  let scaled := Decimal.roundDiv (num * 10 ^ places) den
  let whole := toString (scaled / 10 ^ places)
  if places = 0 then whole else whole ++ "." ++ Decimal.padLeft places (scaled % 10 ^ places)

/-- A magnitude with one digit before the point, a number of digits after it, and an exponent. -/
def scientificText (places : Nat) (m : Nat) (q : Int) : String :=
  let (num, den) := fraction m q
  (Decimal.rounded num den (places + 1)).exponential

/-- The number nearest to `m · 10 ^ e`. Beyond the exponents that can matter it is infinite or zero at once. -/
def ofMagnitude (m : Nat) (e : Int) : Float :=
  if m = 0 then 0.0
  else if 400 < e then 1.0 / 0.0
  else if e + ((m.log2 / 3 : Nat) : Int) < -400 then 0.0
  else if 0 ≤ e then Float.ofScientific m false e.toNat
  else Float.ofScientific m true (-e).toNat

def zeroText (places : Nat) : String := if places = 0 then "0" else "0." ++ Decimal.padLeft places 0

end Binary64

instance : DecimalText Float where
  ofDecimal negative m e := if negative then -Binary64.ofMagnitude m e else Binary64.ofMagnitude m e
  plain := Binary64.write "0" fun m q edge => (Binary64.around m q edge).shortest.positional
  exponential := Binary64.write "0e0" fun m q edge => (Binary64.around m q edge).shortest.exponential
  compact := Binary64.write "0.0" fun m q edge => Binary64.compactText (Binary64.around m q edge).shortest
  fixed places := Binary64.write (Binary64.zeroText places) fun m q _ => Binary64.fixedText places m q
  scientific places := Binary64.write (Binary64.zeroText places ++ "e0") fun m q _ => Binary64.scientificText places m q

end CircuitSynthesis
