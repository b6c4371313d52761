import Mathlib
import CircuitSynthesis.Amplitude
import CircuitSynthesis.Proofs.Exact.Scalar

/-!
# Amplitudes as complex numbers

Over the real numbers an amplitude is a complex number: `toComplex` is injective and takes every operation on amplitudes
to the operation of the same name. Two facts carry the synthesis of phases: an amplitude is its modulus times the
exponential of its angle, and exponentials at nearby angles are near.
-/

namespace CircuitSynthesis.Amplitude

open Complex (I)

/-- The complex number with the same components. -/
def toComplex (z : Amplitude ℝ) : ℂ := ⟨z.re, z.im⟩

/-- The amplitude with the same components. -/
def ofComplex (z : ℂ) : Amplitude ℝ := ⟨z.re, z.im⟩

@[simp] lemma toComplex_ofComplex (z : ℂ) : toComplex (ofComplex z) = z := rfl

@[simp] lemma ofComplex_toComplex (z : Amplitude ℝ) : ofComplex z.toComplex = z := rfl

@[simp] lemma re_toComplex (z : Amplitude ℝ) : z.toComplex.re = z.re := rfl

@[simp] lemma im_toComplex (z : Amplitude ℝ) : z.toComplex.im = z.im := rfl

/-- An amplitude is known by its complex number. -/
lemma toComplex_injective : Function.Injective toComplex := Function.LeftInverse.injective ofComplex_toComplex

section Operations

variable (z w : Amplitude ℝ) (x r t : ℝ)

/-! `toComplex` takes every operation on amplitudes to the one on complex numbers. -/

@[simp] lemma toComplex_zero : (0 : Amplitude ℝ).toComplex = 0 := rfl

@[simp] lemma toComplex_one : (1 : Amplitude ℝ).toComplex = 1 := rfl

@[simp] lemma toComplex_i : (i : Amplitude ℝ).toComplex = I := rfl

@[simp] lemma toComplex_ofReal : (ofReal x).toComplex = x := rfl

@[simp] lemma toComplex_add : (z + w).toComplex = z.toComplex + w.toComplex := rfl

@[simp] lemma toComplex_sub : (z - w).toComplex = z.toComplex - w.toComplex := by
  apply Complex.ext
  · exact (Complex.sub_re z.toComplex w.toComplex).symm
  · exact (Complex.sub_im z.toComplex w.toComplex).symm

@[simp] lemma toComplex_neg : (-z).toComplex = -z.toComplex := rfl

@[simp] lemma toComplex_mul : (z * w).toComplex = z.toComplex * w.toComplex := by
  apply Complex.ext
  · exact (Complex.mul_re z.toComplex w.toComplex).symm
  · exact (Complex.mul_im z.toComplex w.toComplex).symm

@[simp] lemma toComplex_conj : z.conj.toComplex = star z.toComplex := rfl

/-- The squared modulus is that of the complex number. -/
lemma normSq_eq : z.normSq = Complex.normSq z.toComplex := rfl

/-- The squared modulus is the square of the modulus. -/
lemma normSq_eq_norm_sq : z.normSq = ‖z.toComplex‖ ^ 2 := by
  rw [normSq_eq, Complex.normSq_eq_norm_sq]

/-- Division multiplies by the conjugate and divides by the squared modulus, which is division of complex numbers. -/
@[simp] lemma toComplex_div : (z / w).toComplex = z.toComplex / w.toComplex := by
  apply Complex.ext
  · rw [Complex.div_re, ← add_div]
    rfl
  · rw [Complex.div_im, ← sub_div]
    rfl

@[simp] lemma toComplex_smul : (x • z).toComplex = x * z.toComplex := by
  apply Complex.ext
  · exact (Complex.re_ofReal_mul x z.toComplex).symm
  · exact (Complex.im_ofReal_mul x z.toComplex).symm

@[simp] lemma toComplex_divReal : (z.divReal x).toComplex = z.toComplex / x := by
  apply Complex.ext
  · exact (Complex.div_ofReal_re z.toComplex x).symm
  · exact (Complex.div_ofReal_im z.toComplex x).symm

/-- The modulus is that of the complex number. -/
lemma norm_eq : z.norm = ‖z.toComplex‖ := rfl

/-- The modulus of a real amplitude is its absolute value. -/
lemma norm_ofReal : (ofReal x).norm = |x| := by
  rw [norm_eq, toComplex_ofReal, Complex.norm_real, Real.norm_eq_abs]

/-- The argument is that of the complex number. -/
lemma arg_eq : z.arg = z.toComplex.arg := rfl

/-- Polar coordinates are a radius and a turn. -/
@[simp] lemma toComplex_polar : (polar r t).toComplex = r * Complex.exp (t * I) := by
  apply Complex.ext
  · rw [Complex.re_ofReal_mul, Complex.exp_ofReal_mul_I_re]
    rfl
  · rw [Complex.im_ofReal_mul, Complex.exp_ofReal_mul_I_im]
    rfl

/-- A phase is a turn by an angle. -/
@[simp] lemma toComplex_phase : (phase t).toComplex = Complex.exp (t * I) := by
  change (polar 1 t).toComplex = _
  rw [toComplex_polar, Complex.ofReal_one, one_mul]

@[simp] lemma isFinite_real : z.isFinite = true := rfl

/-- A number is its modulus times its phase. -/
lemma norm_smul_phase_arg : (z.norm : ℂ) * Complex.exp (z.arg * I) = z.toComplex :=
  Complex.norm_mul_exp_arg_mul_I z.toComplex

/-- The principal square root squares to the number. -/
lemma sqrt_mul_sqrt : z.sqrt.toComplex * z.sqrt.toComplex = z.toComplex := by
  have hroot (x : ℝ) (hx : 0 ≤ x) : √x * √x = x := Real.mul_self_sqrt hx
  unfold sqrt
  simp only [Scalar.beq_real, decide_eq_true_eq, Scalar.signBit_real]
  split_ifs with him hre hsign hre hsign
  -- on the real axis, first its negative half
  · exact absurd him hsign.ne
  · apply Complex.ext
    · simp [hroot _ (neg_nonneg.2 hre.le)]
    · simp [him]
  · apply Complex.ext
    · simp [him, hroot _ (not_lt.1 hre)]
    · simp [him]
  -- on the imaginary axis, where real and imaginary part of the root have one modulus
  · apply Complex.ext
    · simp [hre]
    · simp only [Complex.mul_im, re_toComplex, im_toComplex, Scalar.sqrt_real, Scalar.abs_real, Scalar.two_real]
      rw [mul_neg, neg_mul, hroot _ (by positivity), abs_of_neg hsign]
      ring
  · apply Complex.ext
    · simp [hre]
    · simp only [Complex.mul_im, re_toComplex, im_toComplex, Scalar.sqrt_real, Scalar.abs_real, Scalar.two_real]
      rw [hroot _ (by positivity), abs_of_nonneg (not_lt.1 hsign)]
      ring
  -- anywhere else the polar form is halved
  · have hnorm : ((√z.norm : ℝ) : ℂ) * (√z.norm : ℝ) = z.norm := by
      rw [← Complex.ofReal_mul, hroot z.norm (norm_nonneg z.toComplex)]
    have hangle : Complex.exp ((z.arg / 2 : ℝ) * I) * Complex.exp ((z.arg / 2 : ℝ) * I) = Complex.exp (z.arg * I) := by
      rw [← Complex.exp_add]
      congr 1
      push_cast
      ring
    rw [toComplex_polar, Scalar.sqrt_real, Scalar.two_real, mul_mul_mul_comm, hnorm, hangle]
    exact norm_smul_phase_arg z

end Operations

section Sums

variable {n : ℕ}

/-- A sum of amplitudes by index is the sum of the complex numbers. -/
lemma toComplex_sumFin (f : Fin n → Amplitude ℝ) : (Scalar.sumFin f).toComplex = ∑ i, (f i).toComplex :=
  Scalar.map_sumFin toComplex toComplex_zero toComplex_add f

/-- A sum over a list of amplitudes is the sum of the complex numbers. -/
lemma toComplex_sum (xs : List (Amplitude ℝ)) : (Scalar.sum xs).toComplex = (xs.map toComplex).sum :=
  Scalar.map_sum toComplex toComplex_zero toComplex_add xs

end Sums

end CircuitSynthesis.Amplitude

namespace Complex

/-- A turn is a unitary number. -/
lemma exp_ofReal_mul_I_mem_unitary (t : ℝ) : exp (t * I) ∈ unitary ℂ := by
  rw [Unitary.mem_iff_self_mul_star, star_def, mul_conj', norm_exp_ofReal_mul_I]
  norm_num

/-- The exponential of an imaginary number is a contraction. -/
lemma norm_exp_mul_I_sub_exp_mul_I_le (s t : ℝ) : ‖exp (s * I) - exp (t * I)‖ ≤ |s - t| := by
  have hfactor : exp (s * I) - exp (t * I) = exp (t * I) * (exp (I * (s - t : ℝ)) - 1) := by
    rw [mul_sub, ← exp_add, mul_one]
    congr 2
    push_cast
    ring
  rw [hfactor, norm_mul, norm_exp_ofReal_mul_I, one_mul, ← Real.norm_eq_abs]
  exact Real.norm_exp_I_mul_ofReal_sub_one_le

/-- Turns by two angles compose to a turn by their sum. -/
lemma exp_ofReal_add_mul_I (s t : ℝ) : exp ((s + t : ℝ) * I) = exp (s * I) * exp (t * I) := by
  rw [ofReal_add, add_mul, exp_add]

/-- The conjugate of a turn turns back. -/
lemma star_exp_mul_I (t : ℝ) : star (exp (t * I)) = exp ((-t : ℝ) * I) := by
  rw [star_def, ← exp_conj, map_mul, conj_ofReal, conj_I, mul_neg, ofReal_neg, neg_mul]

/-- Modulus one and the angle of a number. -/
lemma exp_arg_mul_I_of_norm_eq_one {z : ℂ} (hz : ‖z‖ = 1) : exp (z.arg * I) = z := by
  have h := norm_mul_exp_arg_mul_I z
  rwa [hz, ofReal_one, one_mul] at h

end Complex
