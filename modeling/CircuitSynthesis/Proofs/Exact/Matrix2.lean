import Mathlib
import CircuitSynthesis.Matrix2
import CircuitSynthesis.Proofs.Exact.Dense

/-!
# Matrices on one wire as matrices

Over the real numbers a matrix on one wire is a complex matrix indexed by the two values of the wire: `toMatrix` is
injective and takes every operation on matrices of two rows to the operation of the same name.
-/

namespace CircuitSynthesis

open Matrix

/-- The determinant of a matrix with two rows. -/
lemma det_bool {A : Type} [CommRing A] (M : Matrix Bool Bool A) :
    M.det = M false false * M true true - M false true * M true false := by
  rw [← Matrix.det_submatrix_equiv_self finTwoEquiv, Matrix.det_fin_two]
  rfl

section Unitary

variable {M : Matrix Bool Bool ℂ}

/-- The first column of a unitary matrix has norm one. -/
lemma norm_sq_column (hM : M ∈ unitaryGroup Bool ℂ) : ‖M false false‖ ^ 2 + ‖M true false‖ ^ 2 = 1 := by
  have hcolumn := congrFun (congrFun (mem_unitaryGroup_iff'.1 hM) false) false
  rw [star_eq_conjTranspose, Matrix.mul_apply, Fintype.sum_bool, conjTranspose_apply, conjTranspose_apply, one_apply_eq,
    Complex.star_def, Complex.conj_mul', Complex.conj_mul'] at hcolumn
  rw [add_comm]
  exact_mod_cast hcolumn

/-- The first column of a special unitary matrix determines the second. -/
lemma second_column_eq (hM : M ∈ specialUnitaryGroup Bool ℂ) :
    M false true = -star (M true false) ∧ M true true = star (M false false) := by
  obtain ⟨hunitary, hdet⟩ := mem_specialUnitaryGroup_iff.1 hM
  have hgram := mem_unitaryGroup_iff'.1 hunitary
  have hentry (i j : Bool) : star (M true i) * M true j + star (M false i) * M false j = (1 : Matrix Bool Bool ℂ) i j := by
    rw [← hgram, star_eq_conjTranspose, Matrix.mul_apply, Fintype.sum_bool]
    rfl
  have hfirst : star (M true false) * M true false + star (M false false) * M false false = 1 := hentry false false
  have hcross : star (M true false) * M true true + star (M false false) * M false true = 0 := hentry false true
  rw [det_bool] at hdet
  constructor
  · linear_combination (-star (M true false)) * hdet - M false true * hfirst + M false false * hcross
  · linear_combination (star (M false false)) * hdet - M true true * hfirst + M true false * hcross

end Unitary

namespace Matrix2

/-- A matrix on one wire over the complex numbers, indexed by the value of the wire. -/
def toMatrix (u : Matrix2 ℝ) : Matrix Bool Bool ℂ
  | false, false => u.a.toComplex
  | false, true => u.b.toComplex
  | true, false => u.c.toComplex
  | true, true => u.d.toComplex

/-- A one-wire matrix is known by its complex matrix. -/
lemma toMatrix_injective : Function.Injective toMatrix := by
  rintro ⟨a, b, c, d⟩ ⟨a', b', c', d'⟩ h
  have hentry (i j : Bool) := congrFun (congrFun h i) j
  have ha : a = a' := Amplitude.toComplex_injective (hentry false false)
  have hb : b = b' := Amplitude.toComplex_injective (hentry false true)
  have hc : c = c' := Amplitude.toComplex_injective (hentry true false)
  have hd : d = d' := Amplitude.toComplex_injective (hentry true true)
  rw [ha, hb, hc, hd]

variable (u v : Matrix2 ℝ) (z : Amplitude ℝ)

/-! `toMatrix` takes every operation on one-wire matrices to the one on matrices. -/

@[simp] lemma toMatrix_mul : (u * v).toMatrix = u.toMatrix * v.toMatrix := by
  ext i j
  rw [Matrix.mul_apply, Fintype.sum_bool, add_comm]
  cases i <;> cases j <;> exact (Amplitude.toComplex_add _ _).trans (congrArg₂ _ (Amplitude.toComplex_mul _ _)
    (Amplitude.toComplex_mul _ _))

@[simp] lemma toMatrix_dagger : u.dagger.toMatrix = u.toMatrixᴴ := by
  ext i j
  rw [conjTranspose_apply]
  cases i <;> cases j <;> rfl

@[simp] lemma toMatrix_identity : (identity : Matrix2 ℝ).toMatrix = 1 := by
  ext i j
  cases i <;> cases j <;> simp [toMatrix, identity, ofReals]

@[simp] lemma toMatrix_scale : (u.scale z).toMatrix = z.toComplex • u.toMatrix := by
  ext i j
  cases i <;> cases j <;> exact (Amplitude.toComplex_mul _ _).trans (mul_comm _ _)

@[simp] lemma toMatrix_map_div : (u.map (· / z)).toMatrix = z.toComplex⁻¹ • u.toMatrix := by
  ext i j
  cases i <;> cases j <;> exact (Amplitude.toComplex_div _ _).trans (div_eq_inv_mul _ _)

@[simp] lemma toComplex_det : u.det.toComplex = u.toMatrix.det := by
  rw [det, Amplitude.toComplex_sub, Amplitude.toComplex_mul, Amplitude.toComplex_mul, det_bool]
  rfl

/-- A unitary multiple of the identity is the phase of its first entry. -/
lemma toMatrix_eq_phase {u : Matrix2 ℝ} {z : ℂ} (hu : u.toMatrix ∈ unitaryGroup Bool ℂ) (hz : u.toMatrix = z • 1) :
    u.toMatrix = Complex.exp (u.a.arg * Complex.I) • 1 := by
  have hupper : u.a.toComplex = z := by
    have hentry := congrFun (congrFun hz false) false
    rwa [Matrix.smul_apply, one_apply_eq, smul_eq_mul, mul_one] at hentry
  have hlower : u.c.toComplex = 0 := by
    have hentry := congrFun (congrFun hz true) false
    rwa [Matrix.smul_apply, one_apply_ne Bool.noConfusion, smul_zero] at hentry
  have hnorm : ‖u.a.toComplex‖ = 1 := by
    have hcolumn : ‖u.a.toComplex‖ ^ 2 + ‖u.c.toComplex‖ ^ 2 = 1 := norm_sq_column hu
    rw [hlower, norm_zero] at hcolumn
    nlinarith [norm_nonneg u.a.toComplex]
  rw [Amplitude.arg_eq, Complex.exp_arg_mul_I_of_norm_eq_one hnorm, hupper, hz]

section Hadamard

@[simp] lemma hadamard_mul_hadamard : (hadamard : Matrix2 ℝ).toMatrix * (hadamard : Matrix2 ℝ).toMatrix = 1 := by
  ext i j
  rw [Matrix.mul_apply, Fintype.sum_bool]
  cases i <;> cases j <;> simp [toMatrix, hadamard, ofReals, Scalar.ofReal_sqrtHalf_mul_self] <;> norm_num

/-- The Hadamard matrix is Hermitian. -/
lemma hadamard_conjTranspose : (hadamard : Matrix2 ℝ).toMatrixᴴ = (hadamard : Matrix2 ℝ).toMatrix := by
  ext i j
  cases i <;> cases j <;> simp [toMatrix, hadamard, ofReals]

/-- The Hadamard matrix is unitary. -/
lemma hadamard_mem_unitary : (hadamard : Matrix2 ℝ).toMatrix ∈ Matrix.unitaryGroup Bool ℂ := by
  rw [mem_unitaryGroup_iff, star_eq_conjTranspose, hadamard_conjTranspose, hadamard_mul_hadamard]

/-- The change of basis that takes the third axis to the first. -/
lemma hadamard_mul_pauliZ :
    (hadamard : Matrix2 ℝ).toMatrix * (pauliZ : Matrix2 ℝ).toMatrix * (hadamard : Matrix2 ℝ).toMatrix =
      (pauliX : Matrix2 ℝ).toMatrix := by
  ext i j
  rw [Matrix.mul_apply, Fintype.sum_bool, Matrix.mul_apply, Fintype.sum_bool, Matrix.mul_apply, Fintype.sum_bool]
  cases i <;> cases j <;> simp [toMatrix, hadamard, pauliX, pauliZ, ofReals, Scalar.ofReal_sqrtHalf_mul_self] <;> norm_num

end Hadamard

section Phase

/-- The phase gate turns the second basis state by a quarter. -/
lemma phaseS_toMatrix : (phaseS : Matrix2 ℝ).toMatrix = diagonal fun b => if b then Complex.I else 1 := by
  have hi : (⟨0, 1⟩ : Amplitude ℝ).toComplex = Complex.I := rfl
  ext i j
  cases i <;> cases j <;> simp [toMatrix, phaseS, ofDiagonal, hi]

/-- The inverse of the phase gate turns the second basis state back. -/
lemma phaseSdg_toMatrix : (phaseSdg : Matrix2 ℝ).toMatrix = diagonal fun b => if b then -Complex.I else 1 := by
  have hi : (⟨0, -1⟩ : Amplitude ℝ).toComplex = -Complex.I := by
    apply Complex.ext <;> simp
  ext i j
  cases i <;> cases j <;> simp [toMatrix, phaseSdg, ofDiagonal, hi]

/-- The two phase gates undo each other. -/
lemma phaseS_mul_phaseSdg : (phaseS : Matrix2 ℝ).toMatrix * (phaseSdg : Matrix2 ℝ).toMatrix = 1 := by
  rw [phaseS_toMatrix, phaseSdg_toMatrix, diagonal_mul_diagonal, ← diagonal_one]
  congr 1
  funext b
  cases b <;> simp

/-- The two phase gates are adjoint to each other. -/
lemma phaseS_conjTranspose : (phaseS : Matrix2 ℝ).toMatrixᴴ = (phaseSdg : Matrix2 ℝ).toMatrix := by
  rw [phaseS_toMatrix, phaseSdg_toMatrix, diagonal_conjTranspose]
  congr 1
  funext b
  cases b <;> simp

/-- The phase gate is unitary. -/
lemma phaseS_mem_unitary : (phaseS : Matrix2 ℝ).toMatrix ∈ Matrix.unitaryGroup Bool ℂ := by
  rw [mem_unitaryGroup_iff, star_eq_conjTranspose, phaseS_conjTranspose, phaseS_mul_phaseSdg]

/-- The inverse phase gate is unitary. -/
lemma phaseSdg_mem_unitary : (phaseSdg : Matrix2 ℝ).toMatrix ∈ Matrix.unitaryGroup Bool ℂ := by
  rw [← phaseS_conjTranspose, ← star_eq_conjTranspose]
  exact Unitary.star_mem phaseS_mem_unitary

/-- The change of basis that takes the first axis to the second. -/
lemma phaseS_mul_pauliX : (phaseS : Matrix2 ℝ).toMatrix * (pauliX : Matrix2 ℝ).toMatrix * (phaseSdg : Matrix2 ℝ).toMatrix =
    (pauliY : Matrix2 ℝ).toMatrix := by
  have hi : (⟨0, 1⟩ : Amplitude ℝ).toComplex = Complex.I := rfl
  have hneg : (⟨0, -1⟩ : Amplitude ℝ).toComplex = -Complex.I := by
    apply Complex.ext <;> simp
  rw [phaseS_toMatrix, phaseSdg_toMatrix]
  ext i j
  rw [mul_diagonal, diagonal_mul]
  cases i <;> cases j <;> simp [toMatrix, pauliX, pauliY, ofReals, hi, hneg]

end Phase

end Matrix2

end CircuitSynthesis
