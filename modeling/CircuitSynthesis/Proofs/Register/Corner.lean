import Mathlib
import CircuitSynthesis.Proofs.Householder.Reflection

/-!
# Operators on some basis states

`corner f X` applies `X` to the basis states that an injection `f` picks, and is the identity on the others. In terms of
the isometry `inclusion f` it is `1 + V (X − 1) V†`, so that products, iterated corners (`corner_corner`) and reflections
(`corner_reflection`) are matters of algebra.
-/

namespace CircuitSynthesis

open Matrix

variable {ι κ η : Type} [Fintype ι] [Fintype κ] [Fintype η] [DecidableEq ι] [DecidableEq κ] [DecidableEq η]

/-- The isometry that takes basis state `x` to basis state `f x`. -/
def inclusion (f : κ → ι) : Matrix ι κ ℂ := (1 : Matrix ι ι ℂ).submatrix id f

/-- The operator `X` on the basis states that `f` picks. -/
def corner (f : κ → ι) (X : Matrix κ κ ℂ) : Matrix ι ι ℂ := 1 + inclusion f * (X - 1) * (inclusion f)ᴴ

section Inclusion

omit [Fintype ι] [Fintype κ] [DecidableEq κ] in
/-- An inclusion has a one in each column, at the picked row. -/
lemma inclusion_apply (f : κ → ι) (i : ι) (x : κ) : inclusion f i x = if i = f x then 1 else 0 := by
  rw [inclusion, submatrix_apply, id, one_apply]

omit [Fintype κ] in
/-- An inclusion is isometric. -/
lemma inclusion_conjTranspose_mul_self {f : κ → ι} (hf : Function.Injective f) : (inclusion f)ᴴ * inclusion f = 1 := by
  rw [inclusion, conjTranspose_submatrix, conjTranspose_one, ← submatrix_mul _ _ f id f Function.bijective_id,
    Matrix.one_mul, submatrix_one _ hf]

/-- The part of a unitary operator that keeps to the basis states that are picked is unitary. -/
lemma mem_unitary_of_mul_inclusion {f : κ → ι} (hf : Function.Injective f) {W : Matrix ι ι ℂ} {L : Matrix κ κ ℂ}
    (hW : W ∈ unitaryGroup ι ℂ) (h : W * inclusion f = inclusion f * L) : L ∈ unitaryGroup κ ℂ := by
  have hV := inclusion_conjTranspose_mul_self hf
  have hunitary : Wᴴ * W = 1 := mem_unitaryGroup_iff'.1 hW
  rw [mem_unitaryGroup_iff', star_eq_conjTranspose]
  calc Lᴴ * L = (inclusion f * L)ᴴ * (inclusion f * L) := by
        rw [conjTranspose_mul, Matrix.mul_assoc, ← Matrix.mul_assoc (inclusion f)ᴴ, hV, Matrix.one_mul]
    _ = (inclusion f)ᴴ * (Wᴴ * W) * inclusion f := by
        rw [← h, conjTranspose_mul]
        simp only [Matrix.mul_assoc]
    _ = 1 := by rw [hunitary, Matrix.mul_one, hV]

omit [Fintype ι] [Fintype η] [DecidableEq η] in
/-- Inclusions compose. -/
lemma inclusion_comp (f : κ → ι) (g : η → κ) : inclusion (f ∘ g) = inclusion f * inclusion g := by
  ext i x
  rw [Matrix.mul_apply]
  simp [inclusion_apply]

omit [Fintype ι] in
/-- An inclusion moves an entry to its picked place. -/
lemma inclusion_mulVec_apply {f : κ → ι} (hf : Function.Injective f) (e : κ → ℂ) (x : κ) :
    (inclusion f *ᵥ e) (f x) = e x := by
  simp [mulVec, dotProduct, inclusion_apply, hf.eq_iff]

omit [Fintype ι] [DecidableEq κ] in
/-- An inclusion leaves the other places zero. -/
lemma inclusion_mulVec_of_forall_ne {f : κ → ι} {i : ι} (hi : ∀ x, i ≠ f x) (e : κ → ℂ) : (inclusion f *ᵥ e) i = 0 := by
  simp [mulVec, dotProduct, inclusion_apply, hi]

end Inclusion

section Corner

variable {f : κ → ι}

omit [Fintype ι] in
/-- The corner of the identity is the identity. -/
@[simp] lemma corner_one (f : κ → ι) : corner f 1 = 1 := by
  rw [corner, sub_self, Matrix.mul_zero, Matrix.zero_mul, add_zero]

/-- Corners are multiplied by multiplying their operators. -/
lemma corner_mul (hf : Function.Injective f) (X Y : Matrix κ κ ℂ) : corner f (X * Y) = corner f X * corner f Y := by
  have hinner : inclusion f * (X - 1) * (inclusion f)ᴴ * (inclusion f * (Y - 1) * (inclusion f)ᴴ) =
      inclusion f * ((X - 1) * (Y - 1)) * (inclusion f)ᴴ := by
    calc inclusion f * (X - 1) * (inclusion f)ᴴ * (inclusion f * (Y - 1) * (inclusion f)ᴴ)
        = inclusion f * (X - 1) * ((inclusion f)ᴴ * inclusion f) * (Y - 1) * (inclusion f)ᴴ := by
          simp only [Matrix.mul_assoc]
      _ = inclusion f * ((X - 1) * (Y - 1)) * (inclusion f)ᴴ := by
          rw [inclusion_conjTranspose_mul_self hf, Matrix.mul_one, Matrix.mul_assoc (inclusion f)]
  have hproduct : X * Y - 1 = (X - 1) + (Y - 1) + (X - 1) * (Y - 1) := by noncomm_ring
  rw [corner, corner, corner, hproduct, Matrix.mul_add, Matrix.mul_add, Matrix.add_mul, Matrix.add_mul, Matrix.add_mul,
    Matrix.mul_add, Matrix.mul_add, hinner, Matrix.mul_one, Matrix.mul_one, Matrix.one_mul]
  abel

omit [Fintype ι] in
/-- A corner of a corner. -/
lemma corner_corner (f : κ → ι) (g : η → κ) (X : Matrix η η ℂ) : corner f (corner g X) = corner (f ∘ g) X := by
  rw [corner, corner, corner, inclusion_comp, add_sub_cancel_left, conjTranspose_mul]
  simp only [Matrix.mul_assoc]

/-- The corner of all basis states is the operator itself. -/
@[simp] lemma corner_id (X : Matrix ι ι ℂ) : corner id X = X := by
  rw [corner, inclusion, submatrix_id_id, conjTranspose_one, Matrix.one_mul, Matrix.mul_one, add_sub_cancel]

omit [Fintype ι] in
/-- The corner of a reflection is a reflection. -/
lemma corner_reflection (f : κ → ι) (u : κ → ℂ) : corner f (reflection u) = reflection (inclusion f *ᵥ u) := by
  rw [corner, reflection, sub_sub_cancel_left, Matrix.mul_neg, Matrix.neg_mul, Matrix.mul_smul, Matrix.smul_mul,
    mul_vecMulVec, vecMulVec_mul, ← star_mulVec, ← sub_eq_add_neg, reflection]

omit [Fintype ι] in
/-- A column of a corner on a basis state that is picked. -/
lemma corner_apply_picked (hf : Function.Injective f) (X : Matrix κ κ ℂ) (i : ι) (y : κ) :
    corner f X i (f y) = (inclusion f *ᵥ fun x => X x y) i := by
  have hcolumn : (inclusion f * (X - 1) * (inclusion f)ᴴ : Matrix ι ι ℂ) i (f y) = (inclusion f *ᵥ fun x => (X - 1) x y) i := by
    rw [Matrix.mul_apply, Finset.sum_eq_single y]
    · rw [conjTranspose_apply, inclusion_apply, if_pos rfl, star_one, mul_one]
      rfl
    · intro z _ hz
      rw [conjTranspose_apply, inclusion_apply, if_neg fun h => hz (hf h).symm, star_zero, mul_zero]
    · exact fun hy => absurd (Finset.mem_univ y) hy
  rw [corner, Matrix.add_apply, hcolumn]
  by_cases hi : ∃ x, i = f x
  · obtain ⟨x, rfl⟩ := hi
    rw [inclusion_mulVec_apply hf, inclusion_mulVec_apply hf, Matrix.sub_apply, one_apply, one_apply]
    simp only [hf.eq_iff, add_sub_cancel]
  · rw [not_exists] at hi
    rw [inclusion_mulVec_of_forall_ne hi, inclusion_mulVec_of_forall_ne hi, one_apply_ne (hi y), add_zero]

omit [Fintype ι] in
/-- A column of a corner on a basis state that is not picked. -/
lemma corner_apply_of_forall_ne {j : ι} (hj : ∀ x, j ≠ f x) (X : Matrix κ κ ℂ) (i : ι) :
    corner f X i j = (1 : Matrix ι ι ℂ) i j := by
  have hzero : (inclusion f * (X - 1) * (inclusion f)ᴴ : Matrix ι ι ℂ) i j = 0 := by
    rw [Matrix.mul_apply]
    refine Finset.sum_eq_zero fun x _ => ?_
    rw [conjTranspose_apply, inclusion_apply, if_neg (hj x), star_zero, mul_zero]
  rw [corner, Matrix.add_apply, hzero, add_zero]

end Corner

end CircuitSynthesis
