import CircuitSynthesis.Numerals

/-!
# Scalars

`Scalar R` names the operations that the synthesizers use on real numbers: field operations, comparisons that
can be decided, square root, the trigonometric functions and rounding. The class states no law. Binary floating point
numbers are an instance for running, the real numbers are one for reasoning, and a definition over an arbitrary `R`
speaks of both.

The operations are those of `f64`. `wrapAngle` is `wrap_angle` in `qsynth-compile`.
-/

namespace CircuitSynthesis

/-- The operations on numbers that synthesis needs. -/
class Scalar (R : Type) extends Zero R, One R, Add R, Sub R, Mul R, Div R, Neg R, LT R, LE R, BEq R, NatCast R,
    OfScientific R where
  decideLt : DecidableLT R
  decideLe : DecidableLE R
  pi : R
  sqrt : R → R
  abs : R → R
  sin : R → R
  cos : R → R
  /-- The angle of the point with ordinate `y` and abscissa `x`. -/
  atan2 (y x : R) : R
  hypot (x y : R) : R
  floor : R → R
  /-- The nearest integer, a half going away from zero. -/
  round : R → R
  /-- Whether the value is a number of finite size. -/
  isFinite : R → Bool
  /-- Whether the value carries a minus sign. -/
  signBit : R → Bool

namespace Scalar

variable {R : Type} [Scalar R]

instance : DecidableLT R := Scalar.decideLt
instance : DecidableLE R := Scalar.decideLe

def two : R := ((2 : Nat) : R)

/-- A full turn in radians. -/
def tau : R := two * pi

/-- A quarter turn in radians. -/
def quarterTurn : R := pi / two

def sqrtHalf : R := sqrt (1 / two)

/-- The larger of a running maximum and a candidate; a candidate that compares with nothing is passed over. -/
def maximum (best candidate : R) : R := if best ≤ candidate then candidate else best

/-- The sum of a list, from the left, starting at zero. -/
def sum {α : Type} [Zero α] [Add α] (xs : List α) : α := xs.foldl (· + ·) 0

/-- The sum of a finite family, from the left, starting at zero. -/
@[inline] def sumFin {α : Type} [Zero α] [Add α] {n : Nat} (f : Fin n → α) : α := Fin.foldl n (fun acc i => acc + f i) 0

/-- The sum of a finite family in eight interleaved lanes. Whole blocks of eight are added lane by lane, the lanes four
apart are paired, and what is left over is added at the end. -/
def laneSum {α : Type} [Zero α] [Add α] {n : Nat} (f : Fin n → α) : α :=
  let lane (l : Fin 8) : α := sumFin fun i : Fin (n / 8) => f ⟨8 * i + l, by omega⟩
  let blocks := sumFin fun l : Fin 4 => lane (l.castLE (by decide)) + lane (l.natAdd 4)
  Fin.foldl (n % 8) (fun acc i => acc + f ⟨8 * (n / 8) + i, by omega⟩) blocks

end Scalar

/-- Brings a rotation angle into half a turn on either side of zero. The second component counts the full turns
removed, each of which flips the sign of a rotation about any axis. -/
def wrapAngle {R : Type} [Scalar R] (angle : R) : R × R :=
  let turns := Scalar.round (angle / Scalar.tau)
  (angle - turns * Scalar.tau, turns)

end CircuitSynthesis
