import Mathlib
import CircuitSynthesis.Proofs.Register.Operator

/-!
# Euler angles

`Matrix2.zyz` reads the angles of three rotations off the first column of a unitary matrix divided by its phase: the
moduli of the two entries are the cosine and the sine of half the middle angle, and their angles are half the sum and
half the difference of the outer ones. `norm_zyz_sub_le` bounds what is lost where one of these entries is below the
tolerance. Hence phase and rotations give back the matrix, provided that the entries below the tolerance are zero
(`zyz_spec`), and in any case up to twice the tolerance (`ofEuler_zyz`).
-/

namespace CircuitSynthesis

open Matrix
open Complex (I exp)

/-- The product of the three rotations. -/
noncomputable def EulerAngles.rotation (e : EulerAngles ℝ) : Matrix Bool Bool ℂ :=
  Axis.z.rotation e.alpha * Axis.y.rotation e.beta * Axis.z.rotation e.gamma

/-- The outer rotations multiply the entries of the middle one by phases. -/
lemma EulerAngles.rotation_apply (e : EulerAngles ℝ) (i j : Bool) : e.rotation i j =
    Axis.y.rotation e.beta i j *
      exp (((if i then e.alpha / 2 else -e.alpha / 2) + (if j then e.gamma / 2 else -e.gamma / 2) : ℝ) * I) := by
  rw [EulerAngles.rotation, rotation_z, rotation_z, mul_diagonal, diagonal_mul, Complex.exp_ofReal_add_mul_I]
  ring

/-- The first column of three rotations, and the second one, which it determines. -/
lemma EulerAngles.rotation_columns (s d beta phase : ℝ) :
    (⟨s + d, beta, s - d, phase⟩ : EulerAngles ℝ).rotation = fun i j =>
      match i, j with
      | false, false => (Real.cos (beta / 2) : ℂ) * exp ((-s : ℝ) * I)
      | true, false => (Real.sin (beta / 2) : ℂ) * exp (d * I)
      | false, true => -star ((Real.sin (beta / 2) : ℂ) * exp (d * I))
      | true, true => star ((Real.cos (beta / 2) : ℂ) * exp ((-s : ℝ) * I)) := by
  ext i j
  rw [rotation_apply, rotation_y_apply]
  -- the outer angles add up to `2s` on the diagonal and differ by `2d` outside it
  cases i <;> cases j <;> simp only [Bool.false_eq_true, reduceCtorEq, ↓reduceIte]
  · congr 4
    ring
  · rw [star_mul', Complex.star_exp_mul_I, Complex.star_def, Complex.conj_ofReal, Complex.ofReal_neg, neg_mul]
    congr 5
    ring
  · congr 4
    ring
  · rw [star_mul', Complex.star_exp_mul_I, Complex.star_def, Complex.conj_ofReal]
    congr 4
    ring

/-- Three rotations are as near to a special unitary matrix as their first column is to its first column. -/
lemma EulerAngles.norm_rotation_sub_le {M : Matrix Bool Bool ℂ} (hM : M ∈ specialUnitaryGroup Bool ℂ) {s d beta phase r : ℝ}
    (hupper : ‖(Real.cos (beta / 2) : ℂ) * exp ((-s : ℝ) * I) - M false false‖ ≤ r)
    (hlower : ‖(Real.sin (beta / 2) : ℂ) * exp (d * I) - M true false‖ ≤ r) (i j : Bool) :
    ‖(⟨s + d, beta, s - d, phase⟩ : EulerAngles ℝ).rotation i j - M i j‖ ≤ r := by
  obtain ⟨hright, hcorner⟩ := second_column_eq hM
  rw [rotation_columns]
  cases i <;> cases j
  · exact hupper
  · rwa [hright, neg_sub_neg, ← star_sub, norm_star, norm_sub_rev]
  · exact hlower
  · rwa [hcorner, ← star_sub, norm_star]

namespace Matrix2

/-- The matrix divided by half the phase of its determinant. -/
noncomputable def unimodular (u : Matrix2 ℝ) : Matrix2 ℝ := u.scale (Amplitude.phase (-u.halfPhase))

/-- Whether what the tolerance lets pass for zero is zero, wherever it is compared. -/
structure JudgedExactly (u : Matrix2 ℝ) : Prop where
  /-- A matrix that passes for a multiple of the identity is one. -/
  scalar : u.isScalar = true → u.b.norm = 0 ∧ u.c.norm = 0 ∧ (u.a - u.d).norm = 0
  /-- A lower entry that passes for zero is zero. -/
  lower : u.isScalar = false → u.unimodular.c.norm < epsilon → u.unimodular.c.norm = 0
  /-- An upper entry that passes for zero is zero. -/
  upper : u.isScalar = false → ¬u.unimodular.c.norm < epsilon → u.unimodular.a.norm < epsilon → u.unimodular.a.norm = 0

variable {u : Matrix2 ℝ}

section Unimodular

/-- Dividing by the half phase turns the matrix back. -/
lemma toMatrix_unimodular (u : Matrix2 ℝ) : u.unimodular.toMatrix = exp ((-u.halfPhase : ℝ) * I) • u.toMatrix := by
  rw [unimodular, toMatrix_scale, Amplitude.toComplex_phase]

/-- Turning forward again gives the matrix. -/
lemma phase_smul_unimodular (u : Matrix2 ℝ) : exp (u.halfPhase * I) • u.unimodular.toMatrix = u.toMatrix := by
  rw [toMatrix_unimodular, smul_smul, ← Complex.exp_add, Complex.ofReal_neg, neg_mul, add_neg_cancel, Complex.exp_zero,
    one_smul]

/-- A phase does not change the modulus of a number. -/
lemma norm_unimodular (z : Amplitude ℝ) (t : ℝ) : (z * Amplitude.phase t).norm = z.norm := by
  rw [Amplitude.norm_eq, Amplitude.toComplex_mul, Amplitude.toComplex_phase, norm_mul, Complex.norm_exp_ofReal_mul_I,
    mul_one, Amplitude.norm_eq]

/-- Dividing by the phase leaves determinant one. -/
lemma unimodular_mem (hu : u.toMatrix ∈ unitaryGroup Bool ℂ) : u.unimodular.toMatrix ∈ specialUnitaryGroup Bool ℂ := by
  have hdet : exp (u.det.arg * I) = u.toMatrix.det := by
    rw [Amplitude.arg_eq, toComplex_det]
    exact Complex.exp_arg_mul_I_of_norm_eq_one (CStarRing.norm_of_mem_unitary (det_of_mem_unitary hu))
  rw [mem_specialUnitaryGroup_iff, toMatrix_unimodular]
  refine ⟨Unitary.smul_mem_of_mem (Complex.exp_ofReal_mul_I_mem_unitary _) hu, ?_⟩
  rw [det_smul, Fintype.card_bool, ← hdet, ← Complex.exp_nat_mul, ← Complex.exp_add, halfPhase, Scalar.two_real]
  simp only [Complex.ofReal_neg, Complex.ofReal_div, Complex.ofReal_ofNat, Nat.cast_ofNat]
  rw [show (2 : ℂ) * (-(u.det.arg / 2) * I) + u.det.arg * I = 0 by ring, Complex.exp_zero]

end Unimodular

/-- The angle whose cosine and sine are the coordinates of a point on the unit circle. -/
lemma cos_sin_atan2 {x y : ℝ} (h : x ^ 2 + y ^ 2 = 1) :
    Real.cos (Scalar.atan2 y x) = x ∧ Real.sin (Scalar.atan2 y x) = y := by
  have hnorm : ‖(⟨x, y⟩ : ℂ)‖ = 1 := by
    rw [Complex.norm_eq_sqrt_sq_add_sq, h, Real.sqrt_one]
  have hcircle : exp (Complex.arg ⟨x, y⟩ * I) = ⟨x, y⟩ := Complex.exp_arg_mul_I_of_norm_eq_one hnorm
  constructor
  · exact (Complex.exp_ofReal_mul_I_re _).symm.trans (congrArg Complex.re hcircle)
  · exact (Complex.exp_ofReal_mul_I_im _).symm.trans (congrArg Complex.im hcircle)

/-- Twice the angle of a point in the first quadrant is half a turn at most. -/
lemma two_mul_atan2_mem {x y : ℝ} (hx : 0 ≤ x) (hy : 0 ≤ y) : Scalar.two * Scalar.atan2 y x ∈ Set.Icc 0 Real.pi := by
  have hlow : 0 ≤ Complex.arg ⟨x, y⟩ := Complex.arg_nonneg_iff.2 hy
  have hhigh : |Complex.arg ⟨x, y⟩| ≤ Real.pi / 2 := Complex.abs_arg_le_pi_div_two_iff.2 hx
  rw [Scalar.two_real]
  change 0 ≤ 2 * Complex.arg ⟨x, y⟩ ∧ 2 * Complex.arg ⟨x, y⟩ ≤ Real.pi
  rw [abs_of_nonneg hlow] at hhigh
  exact ⟨by linarith, by linarith⟩

/-- How far the first column of the rotations may be from the first column that they stand for. A lower entry below the
tolerance is left out, and an upper one loses its angle. -/
noncomputable def columnError (u : Matrix2 ℝ) : ℝ :=
  if u.unimodular.c.norm < epsilon then u.unimodular.c.norm
  else if u.unimodular.a.norm < epsilon then 2 * u.unimodular.a.norm
  else 0

/-- The angles are half a sum and half a difference, for which the first column is near. -/
lemma exists_zyz_eq (hu : u.toMatrix ∈ unitaryGroup Bool ℂ) : ∃ s d beta, u.zyz = ⟨s + d, beta, s - d, u.halfPhase⟩ ∧
    beta ∈ Set.Icc 0 Real.pi ∧
    ‖(Real.cos (beta / 2) : ℂ) * exp ((-s : ℝ) * I) - u.unimodular.toMatrix false false‖ ≤ u.columnError ∧
    ‖(Real.sin (beta / 2) : ℂ) * exp (d * I) - u.unimodular.toMatrix true false‖ ≤ u.columnError := by
  have hcircle : u.unimodular.a.norm ^ 2 + u.unimodular.c.norm ^ 2 = 1 :=
    norm_sq_column (mem_specialUnitaryGroup_iff.1 (unimodular_mem hu)).1
  have ha : 0 ≤ u.unimodular.a.norm := norm_nonneg u.unimodular.a.toComplex
  have hc : 0 ≤ u.unimodular.c.norm := norm_nonneg u.unimodular.c.toComplex
  have hupper : (u.unimodular.a.norm : ℂ) * exp (u.unimodular.a.arg * I) = u.unimodular.toMatrix false false :=
    Amplitude.norm_smul_phase_arg _
  have hlower : (u.unimodular.c.norm : ℂ) * exp (u.unimodular.c.arg * I) = u.unimodular.toMatrix true false :=
    Amplitude.norm_smul_phase_arg _
  -- half the middle angle has the moduli for its cosine and its sine
  obtain ⟨hcos, hsin⟩ := cos_sin_atan2 hcircle
  have hhalf : Scalar.two * Scalar.atan2 u.unimodular.c.norm u.unimodular.a.norm / 2 =
      Scalar.atan2 u.unimodular.c.norm u.unimodular.a.norm := by
    rw [Scalar.two_real]
    ring
  rw [← hhalf] at hcos hsin
  have hv : u.scale (Amplitude.phase (-u.halfPhase)) = u.unimodular := rfl
  have hmem := two_mul_atan2_mem ha hc
  rw [zyz, hv, columnError]
  split
  case isTrue hsmall =>
    -- only the sum of the outer angles counts, and the lower entry is left out
    refine ⟨-u.unimodular.a.arg, 0, 0, by rw [add_zero, sub_zero], ⟨le_rfl, Real.pi_pos.le⟩, ?_, ?_⟩
    · rw [zero_div, Real.cos_zero, Complex.ofReal_one, ← hupper, neg_neg, ← sub_mul, norm_mul, Complex.norm_exp_ofReal_mul_I,
        mul_one, ← Complex.ofReal_one, ← Complex.ofReal_sub, Complex.norm_real, Real.norm_eq_abs, abs_of_nonneg (by nlinarith)]
      nlinarith
    · rw [zero_div, Real.sin_zero, Complex.ofReal_zero, zero_mul, zero_sub, norm_neg]
      exact le_rfl
  case isFalse hlarge =>
    split
    case isTrue hsmall =>
      -- only their difference counts, and the upper entry is taken for a positive number
      refine ⟨0, u.unimodular.c.arg, _, by rw [zero_add, zero_sub], hmem, ?_, ?_⟩
      · rw [hcos, neg_zero, Complex.ofReal_zero, zero_mul, Complex.exp_zero, mul_one]
        refine (norm_sub_le _ _).trans (le_of_eq ?_)
        rw [Complex.norm_real, Real.norm_of_nonneg ha, two_mul]
        rfl
      · rw [hsin, hlower, sub_self, norm_zero]
        positivity
    case isFalse =>
      refine ⟨-u.unimodular.a.arg, u.unimodular.c.arg, _, rfl, hmem, ?_, ?_⟩
      · rw [hcos, neg_neg, hupper, sub_self, norm_zero]
      · rw [hsin, hlower, sub_self, norm_zero]

/-- The Euler angles of a unitary matrix give it back up to the error of the first column. -/
lemma norm_zyz_sub_le (hu : u.toMatrix ∈ unitaryGroup Bool ℂ) (i j : Bool) :
    ‖(exp (u.zyz.phase * I) • u.zyz.rotation) i j - u.toMatrix i j‖ ≤ u.columnError := by
  obtain ⟨s, d, beta, hangles, -, hupper, hlower⟩ := exists_zyz_eq hu
  calc ‖(exp (u.zyz.phase * I) • u.zyz.rotation) i j - u.toMatrix i j‖
      = ‖exp (u.halfPhase * I) * (u.zyz.rotation i j - u.unimodular.toMatrix i j)‖ := by
        rw [mul_sub, hangles]
        conv_lhs => rw [← phase_smul_unimodular u]
        rfl
    _ = ‖u.zyz.rotation i j - u.unimodular.toMatrix i j‖ := by
        rw [norm_mul, Complex.norm_exp_ofReal_mul_I, one_mul]
    _ ≤ u.columnError := by
        rw [hangles]
        exact EulerAngles.norm_rotation_sub_le (unimodular_mem hu) hupper hlower i j

/-- With no error in the first column the angles are exact. -/
lemma zyz_eq_of_columnError (hu : u.toMatrix ∈ unitaryGroup Bool ℂ) (herror : u.columnError = 0) :
    exp (u.zyz.phase * I) • u.zyz.rotation = u.toMatrix := by
  ext i j
  exact sub_eq_zero.1 (norm_le_zero_iff.1 (herror ▸ norm_zyz_sub_le hu i j))

/-- A unitary matrix that is not a multiple of the identity is its phase times the rotations by its Euler angles. -/
theorem zyz_spec (hu : u.toMatrix ∈ unitaryGroup Bool ℂ) (hexact : u.JudgedExactly) (hscalar : u.isScalar = false) :
    exp (u.zyz.phase * I) • u.zyz.rotation = u.toMatrix := by
  refine zyz_eq_of_columnError hu ?_
  rw [columnError]
  split_ifs with hc ha
  · exact hexact.lower hscalar hc
  · rw [hexact.upper hscalar hc ha, mul_zero]
  · rfl

section Tolerance

/-- The modulus below which an entry counts as zero. -/
lemma epsilon_real : (epsilon : ℝ) = 1e-10 := rfl

/-- Dividing by the phase keeps the moduli of the first column. -/
lemma norm_unimodular_column (u : Matrix2 ℝ) :
    u.unimodular.a.norm = ‖u.toMatrix false false‖ ∧ u.unimodular.c.norm = ‖u.toMatrix true false‖ :=
  ⟨norm_unimodular u.a _, norm_unimodular u.c _⟩

/-- The matrix that Euler angles stand for. -/
noncomputable def ofEuler (e : EulerAngles ℝ) : Matrix2 ℝ :=
  (rz e.alpha * ry e.beta * rz e.gamma).scale (Amplitude.phase e.phase)

/-- The matrix of Euler angles is their rotation, turned by the phase. -/
lemma toMatrix_ofEuler (e : EulerAngles ℝ) : (ofEuler e).toMatrix = exp (e.phase * I) • e.rotation := by
  rw [ofEuler, toMatrix_scale, toMatrix_mul, toMatrix_mul, Amplitude.toComplex_phase]
  rfl

/-- The Euler angles of a unitary matrix have a middle angle between zero and half a turn. They give back every entry up to
twice the tolerance, and the very matrix if the entries of its first column are zero or reach the tolerance. -/
theorem ofEuler_zyz (hu : u.toMatrix ∈ unitaryGroup Bool ℂ) :
    u.zyz.beta ∈ Set.Icc 0 Real.pi ∧
    (∀ i j, ‖(ofEuler u.zyz).toMatrix i j - u.toMatrix i j‖ < 2e-10) ∧
    ((∀ i, ‖u.toMatrix i false‖ = 0 ∨ 1e-10 ≤ ‖u.toMatrix i false‖) → ofEuler u.zyz = u) := by
  obtain ⟨hupper, hlower⟩ := norm_unimodular_column u
  refine ⟨?_, fun i j => ?_, fun hcolumn => ?_⟩
  · obtain ⟨s, d, beta, hangles, hbeta, -, -⟩ := exists_zyz_eq hu
    rwa [hangles]
  · rw [toMatrix_ofEuler]
    refine (norm_zyz_sub_le hu i j).trans_lt ?_
    rw [columnError, epsilon_real]
    split_ifs with hc ha
    · linarith
    · linarith
    · norm_num
  · apply toMatrix_injective
    rw [toMatrix_ofEuler]
    refine zyz_eq_of_columnError hu ?_
    rw [columnError, epsilon_real, hupper, hlower]
    split_ifs with hc ha
    · exact (hcolumn true).resolve_right (not_le.2 hc)
    · rw [(hcolumn false).resolve_right (not_le.2 ha), mul_zero]
    · rfl

/-- A turn too small to be seen is given back up to the tolerance, and an exchange exactly. -/
theorem ofEuler_zyz_smallTurn :
    (∀ i j, ‖(ofEuler (ry 1e-11 : Matrix2 ℝ).zyz).toMatrix i j - (ry 1e-11 : Matrix2 ℝ).toMatrix i j‖ < 2e-10) ∧
    ofEuler (pauliX : Matrix2 ℝ).zyz = pauliX := by
  have hturn : (ry 1e-11 : Matrix2 ℝ).toMatrix ∈ unitaryGroup Bool ℂ := rotation_mem_unitary .y 1e-11
  have hflip : (pauliX : Matrix2 ℝ).toMatrix ∈ unitaryGroup Bool ℂ := exchange_mem_unitary
  have hcolumn (i : Bool) : ‖(pauliX : Matrix2 ℝ).toMatrix i false‖ = 0 ∨ 1e-10 ≤ ‖(pauliX : Matrix2 ℝ).toMatrix i false‖ := by
    change ‖exchange i false‖ = 0 ∨ 1e-10 ≤ ‖exchange i false‖
    rw [exchange_apply]
    cases i
    · exact .inl (by simp)
    · exact .inr (by norm_num)
  exact ⟨(ofEuler_zyz hturn).2.1, (ofEuler_zyz hflip).2.2 hcolumn⟩

end Tolerance

end Matrix2

end CircuitSynthesis
