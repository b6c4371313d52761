import Mathlib
import CircuitSynthesis.Proofs.TwoQubit.Mirrors
import CircuitSynthesis.Proofs.TwoQubit.Tensor

/-!
# The magic basis

Outside the magic basis the mirror of a real unit vector is the exchange of the wires followed by a local operator whose
factors are read off the image of the vector. Since every real orthogonal matrix is a product of mirrors, the magic basis
takes it to an operator that is local up to an exchange of the wires, and to a local one if its determinant is one. The
Pauli products on both wires are diagonal in the magic basis.
-/

namespace CircuitSynthesis.TwoQubit

open Matrix
open Complex (I)

/-- The magic basis as a matrix, its states as columns. -/
noncomputable def magic : Matrix (Fin 4) (Fin 4) ℂ := (magicBasis : Dense (Amplitude ℝ) 4 4).toMatrix

/-- The operator that a matrix in the magic basis stands for. -/
noncomputable def fromMagic (M : Matrix (Fin 4) (Fin 4) ℂ) : Matrix (Fin 4) (Fin 4) ℂ := magic * M * magicᴴ

/-- The magic basis without its normalization. -/
def integralMagic : Matrix (Fin 4) (Fin 4) ℂ := !![1, I, 0, 0; 0, 0, I, 1; 0, 0, I, -1; 1, -I, 0, 0]

section Basis

/-- The magic basis is its integral form over the root of two. -/
lemma magic_eq : magic = ((Scalar.sqrtHalf : ℝ) : ℂ) • integralMagic := by
  ext i j
  rw [magic, Dense.toMatrix_apply]
  apply Complex.ext <;> fin_cases i <;> fin_cases j <;> simp [magicBasis, Dense.get, integralMagic]

/-- Leaving the magic basis, by the integral form. -/
lemma fromMagic_eq (M : Matrix (Fin 4) (Fin 4) ℂ) :
    fromMagic M = (1 / 2 : ℂ) • (integralMagic * M * integralMagicᴴ) := by
  rw [fromMagic, magic_eq, conjTranspose_smul, Matrix.smul_mul, Matrix.smul_mul, Matrix.mul_smul, smul_smul,
    Complex.star_def, Complex.conj_ofReal, Scalar.ofReal_sqrtHalf_mul_self]

/-- The integral form is unitary up to a factor of two. -/
lemma integralMagic_mul_conjTranspose : integralMagic * integralMagicᴴ = (2 : ℂ) • 1 := by
  ext i j
  rw [Matrix.mul_apply, Fin.sum_univ_four, Matrix.smul_apply, one_apply]
  simp only [integralMagic, conjTranspose_apply]
  fin_cases i <;> fin_cases j <;> simp <;> norm_num

/-- The identity is the same in every basis. -/
@[simp] lemma fromMagic_one : fromMagic 1 = 1 := by
  rw [fromMagic_eq, Matrix.mul_one, integralMagic_mul_conjTranspose, smul_smul]
  norm_num

/-- The magic basis is unitary. -/
lemma magic_mem_unitary : magic ∈ unitaryGroup (Fin 4) ℂ := by
  rw [mem_unitaryGroup_iff, star_eq_conjTranspose]
  simpa [fromMagic] using fromMagic_one

/-- The states of the magic basis are orthonormal. -/
lemma magic_conjTranspose_mul : magicᴴ * magic = 1 := mem_unitaryGroup_iff'.1 magic_mem_unitary

/-- Leaving the magic basis preserves products. -/
lemma fromMagic_mul (M N : Matrix (Fin 4) (Fin 4) ℂ) : fromMagic M * fromMagic N = fromMagic (M * N) := by
  calc magic * M * magicᴴ * (magic * N * magicᴴ) = magic * M * (magicᴴ * magic) * N * magicᴴ := by noncomm_ring
    _ = magic * (M * N) * magicᴴ := by rw [magic_conjTranspose_mul, Matrix.mul_one, Matrix.mul_assoc magic]

/-- Leaving the magic basis preserves multiples. -/
lemma fromMagic_smul (z : ℂ) (M : Matrix (Fin 4) (Fin 4) ℂ) : fromMagic (z • M) = z • fromMagic M := by
  rw [fromMagic, fromMagic, Matrix.mul_smul, Matrix.smul_mul]

/-- Leaving the magic basis preserves sums. -/
lemma fromMagic_add (M N : Matrix (Fin 4) (Fin 4) ℂ) : fromMagic (M + N) = fromMagic M + fromMagic N := by
  rw [fromMagic, fromMagic, fromMagic, Matrix.mul_add, Matrix.add_mul]

/-- Leaving the magic basis preserves the determinant. -/
lemma det_fromMagic (M : Matrix (Fin 4) (Fin 4) ℂ) : (fromMagic M).det = M.det := by
  rw [fromMagic, det_mul_right_comm, ← magic.star_eq_conjTranspose, mem_unitaryGroup_iff.1 magic_mem_unitary, Matrix.one_mul]

end Basis

section Orthogonal

/-- The matrix with rows `a, b` and `-b̄, ā`. -/
def quaternion (a b : ℂ) : Matrix Bool Bool ℂ
  | false, false => a
  | false, true => b
  | true, false => -star b
  | true, true => star a

variable {a b : ℂ}

/-- A quaternion of length one is unitary of determinant one. -/
lemma quaternion_mem (hab : a * star a + b * star b = 1) : quaternion a b ∈ specialUnitaryGroup Bool ℂ := by
  rw [mem_specialUnitaryGroup_iff, mem_unitaryGroup_iff, star_eq_conjTranspose, det_bool]
  constructor
  · ext i j
    rw [Matrix.mul_apply, Fintype.sum_bool, conjTranspose_apply, conjTranspose_apply]
    cases i <;> cases j
    · exact (add_comm _ _).trans hab
    · simp [quaternion, mul_comm]
    · simp [quaternion, mul_comm]
    · simpa [quaternion, mul_comm] using hab
  · simpa [quaternion] using hab

/-- A real vector in the magic basis, written out. -/
lemma integralMagic_mulVec (v : Fin 4 → ℝ) :
    integralMagic *ᵥ (fun i => (v i : ℂ)) =
      ![v 0 + v 1 * I, v 3 + v 2 * I, -star (v 3 + v 2 * I), star (v 0 + v 1 * I)] := by
  ext i
  rw [mulVec, dotProduct, Fin.sum_univ_four]
  fin_cases i <;> simp [integralMagic] <;> ring

/-- The mirror of a unit vector is the exchange of the wires followed by a local operator. -/
lemma one_sub_vecMulVec (hab : a * star a + b * star b = 1) :
    1 - vecMulVec ![a, b, -star b, star a] (star ![a, b, -star b, star a]) =
      tensorMatrix (quaternion (-b) a) (quaternion (-star b) (-a)) * exchangeWires := by
  refine ext_pairs fun p q r s => ?_
  rw [tensorMatrix_mul_exchangeWires, Matrix.sub_apply, vecMulVec_apply, one_apply, Pi.star_apply]
  have hnorm : a * (starRingEnd ℂ) a + b * (starRingEnd ℂ) b = 1 := hab
  -- only the diagonal entries need that the vector is a unit vector
  cases p <;> cases q <;> cases r <;> cases s <;> simp [quaternion, mul_comm] <;> linear_combination -hnorm

/-- Outside the magic basis a mirror is the exchange of the wires followed by a local operator. -/
lemma fromMagic_mirrorMatrix {v : Fin 4 → ℝ} (hv : v ⬝ᵥ v = 1) :
    ∃ M, IsLocal M ∧ fromMagic ((mirrorMatrix v).map (algebraMap ℝ ℂ)) = M * exchangeWires := by
  let w (i : Fin 4) : ℂ := v i
  let a : ℂ := v 0 + v 1 * I
  let b : ℂ := v 3 + v 2 * I
  have hab : a * star a + b * star b = 1 := by
    have hreal : v 0 * v 0 + v 1 * v 1 + v 2 * v 2 + v 3 * v 3 = 1 := by
      rw [← hv, dotProduct, Fin.sum_univ_four]
    rw [Complex.star_def, Complex.mul_conj, Complex.mul_conj, Complex.normSq_add_mul_I, Complex.normSq_add_mul_I,
      ← Complex.ofReal_add, ← Complex.ofReal_one]
    congr 1
    linear_combination hreal
  have hmap : (mirrorMatrix v).map (algebraMap ℝ ℂ) = 1 - (2 : ℂ) • vecMulVec w (star w) := by
    ext i j
    simp [mirrorMatrix, one_apply, vecMulVec_apply, w, apply_ite]
  refine ⟨tensorMatrix (quaternion (-b) a) (quaternion (-star b) (-a)),
    ⟨_, quaternion_mem ?_, _, quaternion_mem ?_, rfl⟩, ?_⟩
  · rw [← hab, star_neg]
    ring
  · rw [← hab, star_neg, star_neg, star_star]
    ring
  · have himage : integralMagic *ᵥ w = ![a, b, -star b, star a] := integralMagic_mulVec v
    rw [← one_sub_vecMulVec hab, ← himage, hmap, fromMagic_eq, Matrix.mul_sub, Matrix.sub_mul, Matrix.mul_one,
      integralMagic_mul_conjTranspose, Matrix.mul_smul, Matrix.smul_mul, mul_vecMulVec, vecMulVec_mul, ← star_mulVec,
      smul_sub, smul_smul, smul_smul]
    norm_num

/-- The magic basis takes a real orthogonal matrix to an operator that is local up to an exchange of the wires. -/
theorem isLocalOrExchanged_fromMagic {Q : Matrix (Fin 4) (Fin 4) ℝ} (hQ : Q ∈ orthogonalGroup (Fin 4) ℝ) :
    IsLocalOrExchanged (fromMagic (Q.map (algebraMap ℝ ℂ))) := by
  refine orthogonal_induction (P := fun Q => IsLocalOrExchanged (fromMagic (Q.map (algebraMap ℝ ℂ)))) ?_ ?_ ?_ hQ
  · rw [Matrix.map_one _ (map_zero _) (map_one _), fromMagic_one]
    exact .inl isLocal_one
  · intro v hv
    exact .inr (fromMagic_mirrorMatrix hv)
  · intro A B hA hB
    rw [Matrix.map_mul, ← fromMagic_mul]
    exact hA.mul hB

/-- The magic basis takes a real orthogonal matrix of determinant one to a local operator. -/
theorem isLocal_fromMagic {Q : Matrix (Fin 4) (Fin 4) ℝ} (hQ : Q ∈ orthogonalGroup (Fin 4) ℝ) (hdet : Q.det = 1) :
    IsLocal (fromMagic (Q.map (algebraMap ℝ ℂ))) := by
  refine (isLocalOrExchanged_fromMagic hQ).isLocal ?_
  have hcast := (algebraMap ℝ ℂ).map_det Q
  rw [det_fromMagic, ← RingHom.mapMatrix_apply, ← hcast, hdet, map_one]

end Orthogonal

section Paulis

/-- The eigenvalues of `XX` on the states of the magic basis. -/
def signsX : Fin 4 → ℝ := ![1, -1, 1, -1]

/-- The eigenvalues of `YY` on the states of the magic basis. -/
def signsY : Fin 4 → ℝ := ![-1, 1, 1, -1]

/-- The eigenvalues of `ZZ` on the states of the magic basis. -/
def signsZ : Fin 4 → ℝ := ![1, 1, -1, -1]

/-- The entries of an operator that is diagonal in the magic basis. -/
lemma fromMagic_diagonal_apply (d : Fin 4 → ℂ) (i j : Fin 4) :
    fromMagic (diagonal d) i j = 1 / 2 * ∑ k, integralMagic i k * d k * star (integralMagic j k) := by
  rw [fromMagic_eq, Matrix.smul_apply, Matrix.mul_apply, smul_eq_mul]
  simp only [mul_diagonal, conjTranspose_apply]

/-- A matrix whose product on both wires is diagonal in the magic basis, with the given signs on the diagonal. -/
structure HasSigns (pauli : Matrix2 ℝ) (signs : Fin 4 → ℝ) : Prop where
  sign : ∀ i, signs i = 1 ∨ signs i = -1
  /-- The states of the magic basis are eigenvectors. -/
  tensor : tensorMatrix pauli.toMatrix pauli.toMatrix = fromMagic (diagonal fun i => (signs i : ℂ))

/-- The signs of the first Pauli matrix on both wires. -/
lemma hasSigns_pauliX : HasSigns .pauliX signsX where
  sign i := by fin_cases i <;> simp [signsX]
  tensor := by
    refine ext_pairs fun a b c d => ?_
    rw [tensorMatrix_apply, fromMagic_diagonal_apply, Fin.sum_univ_four]
    cases a <;> cases b <;> cases c <;> cases d <;>
      simp [integralMagic, signsX, Matrix2.pauliX, Matrix2.ofReals, Matrix2.toMatrix] <;> norm_num

/-- The signs of the second Pauli matrix on both wires. -/
lemma hasSigns_pauliY : HasSigns .pauliY signsY where
  sign i := by fin_cases i <;> simp [signsY]
  tensor := by
    have hi : (⟨0, 1⟩ : Amplitude ℝ).toComplex = I := rfl
    have hneg : (⟨0, -1⟩ : Amplitude ℝ).toComplex = -I := by
      apply Complex.ext <;> simp
    refine ext_pairs fun a b c d => ?_
    rw [tensorMatrix_apply, fromMagic_diagonal_apply, Fin.sum_univ_four]
    cases a <;> cases b <;> cases c <;> cases d <;>
      simp [integralMagic, signsY, Matrix2.pauliY, Matrix2.toMatrix, hi, hneg] <;> norm_num

/-- The signs of the third Pauli matrix on both wires. -/
lemma hasSigns_pauliZ : HasSigns .pauliZ signsZ where
  sign i := by fin_cases i <;> simp [signsZ]
  tensor := by
    refine ext_pairs fun a b c d => ?_
    rw [tensorMatrix_apply, fromMagic_diagonal_apply, Fin.sum_univ_four]
    cases a <;> cases b <;> cases c <;> cases d <;>
      simp [integralMagic, signsZ, Matrix2.pauliZ, Matrix2.ofReals, Matrix2.toMatrix] <;> norm_num

end Paulis

end CircuitSynthesis.TwoQubit
