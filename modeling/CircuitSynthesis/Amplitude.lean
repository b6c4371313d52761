import CircuitSynthesis.Scalar

/-!
# Amplitudes

A complex number in Cartesian form over any scalar. Products, quotients and roots are given componentwise, so that the
sign of a zero component is determined by the scalar operations alone.

Over binary floating point this is `Complex64`, and `normSq`, `conj`, `norm`, `arg`, `sqrt` and `polar` are its
`norm_sqr`, `conj`, `norm`, `arg`, `sqrt` and `from_polar`.
-/

namespace CircuitSynthesis

/-- A complex number `re + im·i`. -/
structure Amplitude (R : Type) where
  re : R
  im : R
  deriving DecidableEq

namespace Amplitude

variable {R : Type} [Scalar R]

def ofReal (x : R) : Amplitude R := ⟨x, 0⟩

instance : Zero (Amplitude R) := ⟨⟨0, 0⟩⟩
instance : One (Amplitude R) := ⟨⟨1, 0⟩⟩

def i : Amplitude R := ⟨0, 1⟩

instance : Add (Amplitude R) := ⟨fun z w => ⟨z.re + w.re, z.im + w.im⟩⟩
instance : Sub (Amplitude R) := ⟨fun z w => ⟨z.re - w.re, z.im - w.im⟩⟩
instance : Neg (Amplitude R) := ⟨fun z => ⟨-z.re, -z.im⟩⟩
instance : Mul (Amplitude R) := ⟨fun z w => ⟨z.re * w.re - z.im * w.im, z.re * w.im + z.im * w.re⟩⟩

def normSq (z : Amplitude R) : R := z.re * z.re + z.im * z.im

instance : Div (Amplitude R) where
  div z w :=
    let n := w.normSq
    ⟨(z.re * w.re + z.im * w.im) / n, (z.im * w.re - z.re * w.im) / n⟩

/-- Scaling by a real number. -/
instance : SMul R (Amplitude R) := ⟨fun x z => ⟨x * z.re, x * z.im⟩⟩

def divReal (z : Amplitude R) (x : R) : Amplitude R := ⟨z.re / x, z.im / x⟩

def conj (z : Amplitude R) : Amplitude R := ⟨z.re, -z.im⟩

def norm (z : Amplitude R) : R := Scalar.hypot z.re z.im

/-- The angle from the positive real axis. -/
def arg (z : Amplitude R) : R := Scalar.atan2 z.im z.re

/-- The amplitude of modulus `r` and angle `t`. -/
def polar (r t : R) : Amplitude R := ⟨r * Scalar.cos t, r * Scalar.sin t⟩

/-- The amplitude of modulus one and angle `t`. -/
def phase (t : R) : Amplitude R := polar 1 t

def isFinite (z : Amplitude R) : Bool := Scalar.isFinite z.re && Scalar.isFinite z.im

/-- The principal square root. On the axes it is taken without an angle, which keeps the other component exact. -/
def sqrt (z : Amplitude R) : Amplitude R :=
  if z.im == 0 then
    if Scalar.signBit z.re then
      let y := Scalar.sqrt (-z.re)
      ⟨0, if Scalar.signBit z.im then -y else y⟩
    else ⟨Scalar.sqrt z.re, z.im⟩
  else if z.re == 0 then
    let x := Scalar.sqrt (Scalar.abs z.im / Scalar.two)
    ⟨x, if Scalar.signBit z.im then -x else x⟩
  else polar (Scalar.sqrt z.norm) (z.arg / Scalar.two)

end Amplitude

end CircuitSynthesis
