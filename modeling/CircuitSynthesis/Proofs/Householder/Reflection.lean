import Mathlib
import CircuitSynthesis.Proofs.Numerals

/-!
# Reflections

`reflection u` is the operator `1 − 2uu†`, Hermitian and an involution if `u` is a unit vector. The reflection along the
difference of a vector and a multiple of a basis vector of the same length takes one to the other
(`reflection_mirror_mulVec`).
-/

namespace CircuitSynthesis

open Matrix
open Complex (I exp)

section Reflection

variable {ι : Type} [Fintype ι] [DecidableEq ι] {u : ι → ℂ}

/-- The reflection along a vector. -/
def reflection (u : ι → ℂ) : Matrix ι ι ℂ := 1 - (2 : ℂ) • vecMulVec u (star u)

omit [Fintype ι] in
/-- A reflection is Hermitian. -/
lemma reflection_conjTranspose (u : ι → ℂ) : (reflection u)ᴴ = reflection u := by
  rw [reflection, conjTranspose_sub, conjTranspose_one, conjTranspose_smul, conjTranspose_vecMulVec, star_star,
    Complex.star_def, Complex.conj_ofNat]

omit [Fintype ι] in
/-- A phase does not change the reflection along a vector. -/
lemma reflection_smul {c : ℂ} (hc : ‖c‖ = 1) (u : ι → ℂ) : reflection (c • u) = reflection u := by
  have hunit : star c * c = 1 := by
    rw [mul_comm, Complex.star_def, Complex.mul_conj, Complex.normSq_eq_norm_sq, hc, one_pow, Complex.ofReal_one]
  rw [reflection, star_smul, vecMulVec_smul, smul_vecMulVec, smul_smul _ c, hunit, one_smul, reflection]

/-- A reflection changes a matrix by a matrix of rank one. -/
lemma reflection_mul {κ : Type} (u : ι → ℂ) (A : Matrix ι κ ℂ) :
    reflection u * A = A - (2 : ℂ) • vecMulVec u (star u ᵥ* A) := by
  rw [reflection, Matrix.sub_mul, Matrix.one_mul, Matrix.smul_mul, vecMulVec_mul]

/-- Entry by entry, a reflection subtracts a multiple of its vector from each column. -/
lemma reflection_mul_apply {κ : Type} (u : ι → ℂ) (A : Matrix ι κ ℂ) (i : ι) (c : κ) :
    (reflection u * A) i c = A i c - 2 * u i * (star u ⬝ᵥ fun k => A k c) := by
  rw [reflection_mul, Matrix.sub_apply, Matrix.smul_apply, vecMulVec_apply, smul_eq_mul, mul_assoc]
  rfl

/-- A reflection subtracts from a vector twice its component along the mirror. -/
lemma reflection_mulVec (u y : ι → ℂ) : reflection u *ᵥ y = y - (2 * (star u ⬝ᵥ y)) • u := by
  rw [reflection, sub_mulVec, one_mulVec, smul_mulVec, vecMulVec_mulVec, op_smul_eq_smul, smul_smul]

/-- A reflection along a unit vector undoes itself. -/
lemma reflection_mul_self (hu : star u ⬝ᵥ u = 1) : reflection u * reflection u = 1 := by
  have hrow : star u ᵥ* reflection u = -star u := by
    have h := congrArg star (reflection_mulVec u u)
    rw [star_mulVec, reflection_conjTranspose, hu] at h
    rw [h]
    ext i
    simp
    ring
  rw [reflection_mul, hrow, reflection, vecMulVec_neg, smul_neg, sub_neg_eq_add, sub_add_cancel]

/-- A reflection along a unit vector is unitary. -/
lemma reflection_mem_unitary (hu : star u ⬝ᵥ u = 1) : reflection u ∈ unitaryGroup ι ℂ := by
  rw [mem_unitaryGroup_iff, star_eq_conjTranspose, reflection_conjTranspose, reflection_mul_self hu]

section Mirror

variable {y : ι → ℂ} {ν ℓ : ℝ} (j : ι)

/-- The entry that a vector is reflected to: as long as the vector, and opposite in phase to its own entry. -/
noncomputable def reflectedEntry (ν : ℝ) (z : ℂ) : ℂ := -(ν * exp (z.arg * I))

/-- A vector less the multiple of a basis vector that it is reflected to. -/
noncomputable def mirror (ν : ℝ) (j : ι) (y : ι → ℂ) : ι → ℂ := y - Pi.single j (reflectedEntry ν (y j))

/-- The reflected entry and the entry it replaces are opposite in phase. -/
lemma star_reflectedEntry_mul (ν : ℝ) (z : ℂ) : star (reflectedEntry ν z) * z = -(ν * ‖z‖ : ℝ) := by
  have hphase : star (exp (z.arg * I)) * exp (z.arg * I) = 1 := by
    rw [Complex.star_def, Complex.conj_mul', Complex.norm_exp_ofReal_mul_I, Complex.ofReal_one, one_pow]
  calc star (reflectedEntry ν z) * z
      = -(ν * ‖z‖ * (star (exp (z.arg * I)) * exp (z.arg * I))) := by
        nth_rewrite 2 [← Complex.norm_mul_exp_arg_mul_I z]
        rw [reflectedEntry, star_neg, star_mul', Complex.star_def, Complex.conj_ofReal]
        ring
    _ = -(ν * ‖z‖ : ℝ) := by
        rw [hphase, mul_one]
        push_cast
        rfl

/-- The reflected entry is as long as the vector. -/
lemma norm_reflectedEntry (hν : 0 ≤ ν) (z : ℂ) : ‖reflectedEntry ν z‖ = ν := by
  rw [reflectedEntry, norm_neg, norm_mul, Complex.norm_exp_ofReal_mul_I, mul_one, Complex.norm_real, Real.norm_of_nonneg hν]

/-- The inner product with a multiple of a basis vector reads one entry. -/
lemma star_single_dotProduct (z : ℂ) (v : ι → ℂ) : star (Pi.single j z : ι → ℂ) ⬝ᵥ v = star z * v j := by
  have hstar : star (Pi.single j z : ι → ℂ) = Pi.single j (star z) := by
    ext i
    rw [Pi.star_apply, Pi.single_apply, Pi.single_apply, apply_ite star, star_zero]
  rw [hstar, single_dotProduct]

variable (hν : 0 ≤ ν) (hy : star y ⬝ᵥ y = (ν ^ 2 : ℝ))

include hy

/-- The inner product of the mirror with the vector it belongs to. -/
lemma star_mirror_dotProduct : star (mirror ν j y) ⬝ᵥ y = (ν ^ 2 + ν * ‖y j‖ : ℝ) := by
  rw [mirror, star_sub, sub_dotProduct, hy, star_single_dotProduct, star_reflectedEntry_mul]
  push_cast
  ring

include hν

/-- The squared length of the mirror is twice that inner product. -/
lemma star_mirror_dotProduct_self : star (mirror ν j y) ⬝ᵥ mirror ν j y = (2 * (ν ^ 2 + ν * ‖y j‖) : ℝ) := by
  have hcross : star (y j) * reflectedEntry ν (y j) = -(ν * ‖y j‖ : ℝ) := by
    have h := congrArg star (star_reflectedEntry_mul ν (y j))
    rwa [star_mul', star_star, mul_comm, star_neg, Complex.star_def, Complex.conj_ofReal] at h
  have hsq : star (reflectedEntry ν (y j)) * reflectedEntry ν (y j) = (ν ^ 2 : ℝ) := by
    rw [Complex.star_def, Complex.conj_mul', norm_reflectedEntry hν, Complex.ofReal_pow]
  have hlast : star (mirror ν j y) ⬝ᵥ Pi.single j (reflectedEntry ν (y j)) = -(ν * ‖y j‖ + ν ^ 2 : ℝ) := by
    rw [dotProduct_single, Pi.star_apply, mirror, Pi.sub_apply, Pi.single_eq_same, star_sub, sub_mul, hcross, hsq]
    push_cast
    ring
  nth_rewrite 2 [mirror]
  rw [dotProduct_sub, star_mirror_dotProduct j hy, hlast]
  push_cast
  ring

variable (hℓ : ℓ ≠ 0) (hlength : ℓ ^ 2 = 2 * (ν ^ 2 + ν * ‖y j‖))

include hℓ hlength

omit hν in
/-- The normalized mirror reflects the vector to the multiple of the basis vector. -/
lemma reflection_mirror_mulVec : reflection ((ℓ : ℂ)⁻¹ • mirror ν j y) *ᵥ y = Pi.single j (reflectedEntry ν (y j)) := by
  have hℓ' : (ℓ : ℂ) ≠ 0 := by exact_mod_cast hℓ
  have hfactor : 2 * (star ((ℓ : ℂ)⁻¹ • mirror ν j y) ⬝ᵥ y) * (ℓ : ℂ)⁻¹ = 1 := by
    have hlength' : 2 * ((ν ^ 2 + ν * ‖y j‖ : ℝ) : ℂ) = (ℓ : ℂ) ^ 2 := by exact_mod_cast hlength.symm
    rw [star_smul, smul_dotProduct, star_mirror_dotProduct j hy, smul_eq_mul, mul_left_comm, hlength', Complex.star_def,
      map_inv₀, Complex.conj_ofReal]
    field_simp
  rw [reflection_mulVec, smul_smul, hfactor, one_smul, mirror, sub_sub_cancel]

/-- Divided by its length the mirror is a unit vector. -/
lemma star_smul_mirror_dotProduct_self : star ((ℓ : ℂ)⁻¹ • mirror ν j y) ⬝ᵥ ((ℓ : ℂ)⁻¹ • mirror ν j y) = 1 := by
  have hℓ' : (ℓ : ℂ) ≠ 0 := by exact_mod_cast hℓ
  rw [star_smul, smul_dotProduct, dotProduct_smul, star_mirror_dotProduct_self j hν hy, ← hlength, smul_eq_mul,
    smul_eq_mul, Complex.star_def, map_inv₀, Complex.conj_ofReal]
  push_cast
  field_simp

end Mirror

end Reflection

end CircuitSynthesis
