import Mathlib
import CircuitSynthesis.Proofs.Numerals

/-!
# Orthogonal matrices as products of mirrors

A mirror `1 - 2·v·vᵀ` reflects the real unit vector `v`. The linear isometries of a Euclidean space are products of
reflections, so that a property of matrices which holds of the identity and of every mirror, and is kept by products,
holds of every orthogonal matrix: this is `orthogonal_induction`.
-/

namespace CircuitSynthesis.TwoQubit

open Matrix

variable {n : ℕ}

/-- The matrix that reflects a real unit vector. -/
def mirrorMatrix (v : Fin n → ℝ) : Matrix (Fin n) (Fin n) ℝ := 1 - (2 : ℝ) • vecMulVec v v

/-- A mirror subtracts twice the component along its vector. -/
lemma mirrorMatrix_mulVec (v x : Fin n → ℝ) : mirrorMatrix v *ᵥ x = x - (2 * (v ⬝ᵥ x)) • v := by
  rw [mirrorMatrix, sub_mulVec, one_mulVec, smul_mulVec, vecMulVec_mulVec, op_smul_eq_smul, smul_smul]

/-- The matrix of a linear isometry of a Euclidean space. -/
noncomputable def isometryMatrix (φ : EuclideanSpace ℝ (Fin n) ≃ₗᵢ[ℝ] EuclideanSpace ℝ (Fin n)) :
    Matrix (Fin n) (Fin n) ℝ :=
  (toEuclideanCLM (n := Fin n) (𝕜 := ℝ)).symm (φ : EuclideanSpace ℝ (Fin n) →L[ℝ] EuclideanSpace ℝ (Fin n))

/-- Isometries compose as their matrices multiply. -/
lemma isometryMatrix_mul (φ ψ : EuclideanSpace ℝ (Fin n) ≃ₗᵢ[ℝ] EuclideanSpace ℝ (Fin n)) :
    isometryMatrix (φ * ψ) = isometryMatrix φ * isometryMatrix ψ :=
  map_mul (toEuclideanCLM (n := Fin n) (𝕜 := ℝ)).symm (φ : EuclideanSpace ℝ (Fin n) →L[ℝ] EuclideanSpace ℝ (Fin n)) ψ

/-- The identity has the identity matrix. -/
@[simp] lemma isometryMatrix_one :
    isometryMatrix (1 : EuclideanSpace ℝ (Fin n) ≃ₗᵢ[ℝ] EuclideanSpace ℝ (Fin n)) = 1 :=
  map_one (toEuclideanCLM (n := Fin n) (𝕜 := ℝ)).symm

/-- Every orthogonal matrix is the matrix of an isometry. -/
lemma exists_isometryMatrix_eq {Q : Matrix (Fin n) (Fin n) ℝ} (hQ : Q ∈ orthogonalGroup (Fin n) ℝ) :
    ∃ φ : EuclideanSpace ℝ (Fin n) ≃ₗᵢ[ℝ] EuclideanSpace ℝ (Fin n), isometryMatrix φ = Q := by
  have hmem : toEuclideanCLM (n := Fin n) (𝕜 := ℝ) Q ∈
      unitary (EuclideanSpace ℝ (Fin n) →L[ℝ] EuclideanSpace ℝ (Fin n)) := by
    rw [Unitary.mem_iff, ← map_star, ← map_mul, ← map_mul, Unitary.star_mul_self_of_mem hQ,
      Unitary.mul_star_self_of_mem hQ, map_one]
    exact ⟨rfl, rfl⟩
  refine ⟨Unitary.linearIsometryEquiv ⟨_, hmem⟩, ?_⟩
  rw [isometryMatrix, Unitary.coe_linearIsometryEquiv_apply]
  exact (toEuclideanCLM (n := Fin n) (𝕜 := ℝ)).symm_apply_apply Q

/-- The matrix of an isometry is the one that acts like it. -/
lemma isometryMatrix_eq {φ : EuclideanSpace ℝ (Fin n) ≃ₗᵢ[ℝ] EuclideanSpace ℝ (Fin n)} {M : Matrix (Fin n) (Fin n) ℝ}
    (h : ∀ x, (φ x).ofLp = M *ᵥ x.ofLp) : isometryMatrix φ = M := by
  rw [isometryMatrix, ← (toEuclideanCLM (n := Fin n) (𝕜 := ℝ)).symm_apply_apply M]
  congr 1
  ext x i
  exact congrFun (h x) i

/-- The reflection in the complement of a vector is a mirror or the identity. -/
lemma isometryMatrix_reflection (v : EuclideanSpace ℝ (Fin n)) :
    isometryMatrix (ℝ ∙ v)ᗮ.reflection = 1 ∨
      ∃ w : Fin n → ℝ, w ⬝ᵥ w = 1 ∧ isometryMatrix (ℝ ∙ v)ᗮ.reflection = mirrorMatrix w := by
  by_cases hv : v = 0
  · refine .inl (isometryMatrix_eq fun x => ?_)
    rw [one_mulVec, Submodule.reflection_mem_subspace_eq_self]
    rw [hv, Submodule.mem_orthogonal_singleton_iff_inner_right, inner_zero_left]
  · have hnorm : ‖v‖ ≠ 0 := norm_ne_zero_iff.2 hv
    have hself : v.ofLp ⬝ᵥ v.ofLp = ‖v‖ ^ 2 := by
      rw [EuclideanSpace.real_norm_sq_eq, dotProduct]
      exact Finset.sum_congr rfl fun i _ => (sq (v i)).symm
    refine .inr ⟨‖v‖⁻¹ • v.ofLp, ?_, isometryMatrix_eq fun x => ?_⟩
    · rw [smul_dotProduct, dotProduct_smul, hself, smul_eq_mul, smul_eq_mul]
      field_simp
    · rw [mirrorMatrix_mulVec, Submodule.reflection_orthogonal_apply, Submodule.reflection_singleton_apply,
        EuclideanSpace.inner_eq_star_dotProduct]
      simp only [star_trivial, smul_dotProduct, smul_eq_mul]
      ext i
      simp only [Real.ringHom_apply, neg_sub, PiLp.sub_apply, PiLp.smul_apply, smul_eq_mul, nsmul_eq_mul, Nat.cast_ofNat,
        Pi.sub_apply, Pi.smul_apply, sub_right_inj]
      rw [dotProduct_comm]
      field_simp

/-- What holds of the identity and of every mirror, and of a product when it holds of the factors, holds of every
orthogonal matrix. -/
lemma orthogonal_induction {P : Matrix (Fin n) (Fin n) ℝ → Prop} (hone : P 1)
    (hmirror : ∀ v : Fin n → ℝ, v ⬝ᵥ v = 1 → P (mirrorMatrix v)) (hmul : ∀ {A B}, P A → P B → P (A * B))
    {Q : Matrix (Fin n) (Fin n) ℝ} (hQ : Q ∈ orthogonalGroup (Fin n) ℝ) : P Q := by
  obtain ⟨φ, rfl⟩ := exists_isometryMatrix_eq hQ
  clear hQ
  obtain ⟨vs, -, rfl⟩ := φ.reflections_generate_dim
  induction vs with
  | nil => rwa [List.map_nil, List.prod_nil, isometryMatrix_one]
  | cons v vs ih =>
    rw [List.map_cons, List.prod_cons, isometryMatrix_mul]
    refine hmul ?_ ih
    rcases isometryMatrix_reflection v with h | ⟨w, hw, h⟩
    · rwa [h]
    · rw [h]
      exact hmirror w hw

end CircuitSynthesis.TwoQubit
