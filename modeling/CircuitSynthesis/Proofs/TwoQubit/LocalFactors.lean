import Mathlib
import CircuitSynthesis.Proofs.TwoQubit.MagicBasis

/-!
# Taking local operators apart

`LocalFactors.ofTensor` divides a block of a local operator by a square root of its determinant, which is the right factor
up to a sign, and what is left is the left factor up to the same sign. Hence it gives two factors of determinant one with
no phase, whose product is the operator. Of any other operator it says what is checked (`ofTensor_eq_ok_iff`).
-/

namespace CircuitSynthesis.TwoQubit.LocalFactors

open Matrix

/-- Whether factors without a phase have determinant one and stand for a given operator. -/
structure Factorizes (f : LocalFactors ℝ) (K : Matrix (Fin 4) (Fin 4) ℂ) : Prop where
  left : f.left.toMatrix ∈ specialUnitaryGroup Bool ℂ
  right : f.right.toMatrix ∈ specialUnitaryGroup Bool ℂ
  phase : f.phase = 0
  swapped : f.swapped = false
  product : tensorMatrix f.left.toMatrix f.right.toMatrix = K

/-- Without an exchange the operator is the product of the factors, times the phase. -/
lemma toMatrix_matrix_eq_smul {f : LocalFactors ℝ} (hswapped : f.swapped = false) :
    f.matrix.toMatrix = Complex.exp (f.phase * Complex.I) • tensorMatrix f.left.toMatrix f.right.toMatrix := by
  rw [matrix, hswapped, if_neg Bool.false_ne_true, Dense.toMatrix_scale, toMatrix_tensor, Amplitude.toComplex_phase]

/-- Without a phase and an exchange the operator is the product of the factors. -/
lemma toMatrix_matrix {f : LocalFactors ℝ} (hphase : f.phase = 0) (hswapped : f.swapped = false) :
    f.matrix.toMatrix = tensorMatrix f.left.toMatrix f.right.toMatrix := by
  rw [toMatrix_matrix_eq_smul hswapped, hphase, Complex.ofReal_zero, zero_mul, Complex.exp_zero, one_smul]

/-- Factors that stand for an operator rebuild it. -/
lemma Factorizes.toMatrix_matrix {f : LocalFactors ℝ} {K : Matrix (Fin 4) (Fin 4) ℂ} (hf : f.Factorizes K) :
    f.matrix.toMatrix = K := by
  rw [LocalFactors.toMatrix_matrix hf.phase hf.swapped, hf.product]

section Steps

lemma upperRow_lt : 0 + 1 < 4 := by decide

lemma lowerRow_lt : 2 + 1 < 4 := by decide

/-- The block that the right factor is read off. -/
noncomputable def pickBlock (k : Dense (Amplitude ℝ) 4 4) : Matrix2 ℝ :=
  if (leftBlock k 0 upperRow_lt).det.norm < (0.1 : ℝ) then leftBlock k 2 lowerRow_lt else leftBlock k 0 upperRow_lt

/-- A block scaled to determinant one. -/
noncomputable def normalized (block : Matrix2 ℝ) : Matrix2 ℝ := block.map (· / block.det.sqrt)

/-- The left factor of an operator whose right factor is known. -/
noncomputable def remainder (k : Dense (Amplitude ℝ) 4 4) (right : Matrix2 ℝ) : Matrix2 ℝ :=
  let stripped := k.dot (tensor .identity right.dagger)
  ⟨stripped.get 0 0, stripped.get 0 2, stripped.get 2 0, stripped.get 2 2⟩

/-- The phase that scales a matrix to determinant one. -/
noncomputable def phaseOf (rest : Matrix2 ℝ) : ℝ := rest.det.arg / Scalar.two

/-- A matrix scaled to determinant one by its modulus and its phase. -/
noncomputable def balanced (rest : Matrix2 ℝ) : Matrix2 ℝ :=
  rest.scale (Amplitude.polar (1 / Scalar.sqrt rest.det.norm) (-phaseOf rest))

/-- The distance of a product from the operator that it should be. -/
noncomputable def residual (k : Dense (Amplitude ℝ) 4 4) (left right : Matrix2 ℝ) (phase : ℝ) : ℝ :=
  (k - (tensor left right).scale (Amplitude.phase phase)).norm

/-- The right factor that is read off an operator. -/
noncomputable def rightOf (k : Dense (Amplitude ℝ) 4 4) : Matrix2 ℝ := normalized (pickBlock k)

/-- What is left of an operator without its right factor. -/
noncomputable def restOf (k : Dense (Amplitude ℝ) 4 4) : Matrix2 ℝ := remainder k (rightOf k)

/-- The factors that are read off an operator, whatever the operator is. -/
noncomputable def candidate (k : Dense (Amplitude ℝ) 4 4) (swapped : Bool) : LocalFactors ℝ :=
  ⟨balanced (restOf k), rightOf k, phaseOf (restOf k), swapped⟩

/-- Whether the factors that are read off an operator are accepted. -/
structure IsAccepted (k : Dense (Amplitude ℝ) 4 4) : Prop where
  /-- The block can be inverted. -/
  block : ¬(pickBlock k).det.norm < 1e-12
  /-- What is left has a large determinant. -/
  rest : ¬(restOf k).det.norm < 0.9
  /-- The product of the factors is near the operator. -/
  near : ¬productTolerance < residual k (balanced (restOf k)) (rightOf k) (phaseOf (restOf k))

/-- Over the real numbers the guard only compares the error with the tolerance. -/
lemma productTolerance_guard_iff {error : ℝ} :
    (!Scalar.isFinite error || decide (productTolerance < error)) = true ↔ productTolerance < error := by
  simp

/-- An operator is taken apart if and only if its factors are accepted. -/
lemma ofTensor_eq_ok_iff {k : Dense (Amplitude ℝ) 4 4} {swapped : Bool} {f : LocalFactors ℝ} :
    ofTensor k swapped = .ok f ↔ IsAccepted k ∧ candidate k swapped = f := by
  have hfails (e : SynthesisError ℝ) (he : ofTensor k swapped = .error e) (h : ¬IsAccepted k) :
      ofTensor k swapped = .ok f ↔ IsAccepted k ∧ candidate k swapped = f := by
    rw [he]
    exact iff_of_false nofun fun haccepted => h haccepted.1
  by_cases hblock : (pickBlock k).det.norm < 1e-12
  case pos =>
    refine hfails (.degenerate .noInvertibleBlock) ?_ fun h => h.block hblock
    unfold ofTensor
    exact if_pos hblock
  by_cases hrest : (restOf k).det.norm < 0.9
  case pos =>
    refine hfails (.degenerate (.notProduct (restOf k).det.norm)) ?_ fun h => h.rest hrest
    unfold ofTensor
    exact (if_neg hblock).trans (if_pos hrest)
  by_cases hnear : productTolerance < residual k (balanced (restOf k)) (rightOf k) (phaseOf (restOf k))
  case pos =>
    refine hfails (.degenerate (.productResidual (residual k (balanced (restOf k)) (rightOf k) (phaseOf (restOf k))))) ?_
      fun h => h.near hnear
    have hguard := productTolerance_guard_iff.2 hnear
    unfold ofTensor
    exact (if_neg hblock).trans ((if_neg hrest).trans (if_pos hguard))
  case neg =>
    have hguard := mt productTolerance_guard_iff.1 hnear
    have hok : ofTensor k swapped = .ok (candidate k swapped) := by
      unfold ofTensor
      exact (if_neg hblock).trans ((if_neg hrest).trans (if_neg hguard))
    rw [hok, Except.ok.injEq]
    exact (and_iff_right ⟨hblock, hrest, hnear⟩).symm

end Steps

section Blocks

variable {k : Dense (Amplitude ℝ) 4 4} {L R : Matrix Bool Bool ℂ}

/-- The left blocks of a tensor product are multiples of its right factor. -/
lemma toMatrix_leftBlock (hk : k.toMatrix = tensorMatrix L R) (b : Bool) (hb : 2 * b.toNat + 1 < 4) :
    (leftBlock k (2 * b.toNat) hb).toMatrix = L b false • R := by
  ext i j
  have hentry : (leftBlock k (2 * b.toNat) hb).toMatrix i j = k.toMatrix (pairIndex (b, i)) (pairIndex (false, j)) := by
    cases b <;> cases i <;> cases j <;> rfl
  rw [hentry, hk, tensorMatrix_apply]
  rfl

/-- The first column of a special unitary matrix has norm one. -/
lemma norm_column (hL : L ∈ specialUnitaryGroup Bool ℂ) :
    ‖L false false * L false false‖ + ‖L true false * L true false‖ = 1 := by
  rw [norm_mul, norm_mul, ← sq, ← sq, norm_sq_column (mem_specialUnitaryGroup_iff.1 hL).1]

/-- The block that is picked is a multiple of the right factor that is not small. -/
lemma toMatrix_pickBlock (hk : k.toMatrix = tensorMatrix L R) (hL : L ∈ specialUnitaryGroup Bool ℂ)
    (hR : R ∈ specialUnitaryGroup Bool ℂ) : ∃ z : ℂ, (0.1 : ℝ) ≤ ‖z * z‖ ∧ (pickBlock k).toMatrix = z • R := by
  have hcolumn := norm_column hL
  have hupper : (leftBlock k 0 (by omega)).det.norm = ‖L false false * L false false‖ := by
    rw [Amplitude.norm_eq, Matrix2.toComplex_det]
    have hblock : (leftBlock k 0 (by omega)).toMatrix = L false false • R := toMatrix_leftBlock hk false (by decide)
    rw [hblock, det_smul, (mem_specialUnitaryGroup_iff.1 hR).2, Fintype.card_bool, mul_one, sq]
  unfold pickBlock
  rw [hupper]
  split
  · exact ⟨L true false, by linarith, toMatrix_leftBlock hk true (by decide)⟩
  · exact ⟨L false false, by linarith, toMatrix_leftBlock hk false (by decide)⟩

/-- A multiple of a special unitary matrix, scaled to determinant one, is that matrix up to a sign. -/
lemma toMatrix_normalized {block : Matrix2 ℝ} {z : ℂ} (hz : z ≠ 0) (hR : R ∈ specialUnitaryGroup Bool ℂ)
    (hblock : block.toMatrix = z • R) : ∃ ε : ℂ, (ε = 1 ∨ ε = -1) ∧ (normalized block).toMatrix = ε • R := by
  have hdet : block.det.toComplex = z * z := by
    rw [Matrix2.toComplex_det, hblock, det_smul, (mem_specialUnitaryGroup_iff.1 hR).2, Fintype.card_bool, mul_one, sq]
  have hroot : block.det.sqrt.toComplex = z ∨ block.det.sqrt.toComplex = -z := by
    rw [← mul_self_eq_mul_self_iff, Amplitude.sqrt_mul_sqrt, hdet]
  rw [normalized, Matrix2.toMatrix_map_div, hblock, smul_smul]
  refine ⟨_, ?_, rfl⟩
  rcases hroot with h | h <;> rw [h]
  · exact .inl (inv_mul_cancel₀ hz)
  · rw [inv_neg, neg_mul, inv_mul_cancel₀ hz]
    exact .inr rfl

/-- What is left of a tensor product without its right factor is its left factor. -/
lemma toMatrix_remainder (hk : k.toMatrix = tensorMatrix L R) (hR : R ∈ specialUnitaryGroup Bool ℂ) {right : Matrix2 ℝ}
    {ε : ℂ} (hε : ε = 1 ∨ ε = -1) (hright : right.toMatrix = ε • R) : (remainder k right).toMatrix = ε • L := by
  have hstripped : (k.dot (tensor .identity right.dagger)).toMatrix = tensorMatrix (ε • L) 1 := by
    have hinverse : R * Rᴴ = 1 := mem_unitaryGroup_iff.1 (mem_specialUnitaryGroup_iff.1 hR).1
    have hreal : star ε = ε := by
      rcases hε with rfl | rfl <;> simp
    rw [Dense.toMatrix_dot, hk, toMatrix_tensor, tensorMatrix_mul, Matrix2.toMatrix_identity, Matrix.mul_one,
      Matrix2.toMatrix_dagger, hright, conjTranspose_smul, hreal, Matrix.mul_smul, hinverse,
      tensorMatrix_smul_right, tensorMatrix_smul_left]
  ext i j
  have hentry : (remainder k right).toMatrix i j =
      (k.dot (tensor .identity right.dagger)).toMatrix (pairIndex (i, false)) (pairIndex (j, false)) := by
    cases i <;> cases j <;> rfl
  rw [hentry, hstripped, tensorMatrix_apply, one_apply_eq, mul_one]

end Blocks

section Gives

/-- A matrix of determinant one is balanced already. -/
lemma balanced_of_det_eq_one {rest : Matrix2 ℝ} (h : rest.toMatrix.det = 1) : balanced rest = rest ∧ phaseOf rest = 0 := by
  have hdet : rest.det.toComplex = 1 := by
    rw [Matrix2.toComplex_det, h]
  have hphase : phaseOf rest = 0 := by
    rw [phaseOf, Amplitude.arg_eq, hdet, Complex.arg_one, zero_div]
  refine ⟨Matrix2.toMatrix_injective ?_, hphase⟩
  rw [balanced, hphase, Matrix2.toMatrix_scale, Amplitude.norm_eq, hdet]
  simp

/-- A sign does not take determinant one from a matrix on one wire. -/
lemma smul_mem_specialUnitaryGroup {A : Matrix Bool Bool ℂ} {ε : ℂ} (hε : ε = 1 ∨ ε = -1)
    (hA : A ∈ specialUnitaryGroup Bool ℂ) : ε • A ∈ specialUnitaryGroup Bool ℂ := by
  obtain ⟨hunitary, hdet⟩ := mem_specialUnitaryGroup_iff.1 hA
  rw [mem_unitaryGroup_iff] at hunitary
  rw [mem_specialUnitaryGroup_iff, mem_unitaryGroup_iff, det_smul, hdet]
  rcases hε with rfl | rfl <;> simp [hunitary]

/-- The factors that are read off a local operator are accepted and stand for it. -/
theorem accepted_of_isLocal {k : Dense (Amplitude ℝ) 4 4} (hk : IsLocal k.toMatrix) :
    IsAccepted k ∧ (candidate k false).Factorizes k.toMatrix := by
  obtain ⟨L, hL, R, hR, hproduct⟩ := hk
  obtain ⟨z, hz, hblock⟩ := toMatrix_pickBlock hproduct hL hR
  have hz0 : z ≠ 0 := by
    rintro rfl
    norm_num at hz
  obtain ⟨ε, hε, hright⟩ := toMatrix_normalized hz0 hR hblock
  have hrest : (restOf k).toMatrix = ε • L := toMatrix_remainder hproduct hR hε hright
  have hleftMem := smul_mem_specialUnitaryGroup hε hL
  have hrightMem := smul_mem_specialUnitaryGroup hε hR
  have hdetRest : (restOf k).toMatrix.det = 1 := by
    rw [hrest, (mem_specialUnitaryGroup_iff.1 hleftMem).2]
  obtain ⟨hbalanced, hphase⟩ := balanced_of_det_eq_one hdetRest
  have hsquare : ε * ε = 1 := by
    rcases hε with rfl | rfl <;> norm_num
  -- the sign that the square root leaves is in both factors
  have hfactors : tensorMatrix (ε • L) (ε • R) = k.toMatrix := by
    rw [tensorMatrix_smul_left, tensorMatrix_smul_right, smul_smul, hsquare, one_smul, hproduct]
  refine ⟨⟨?block, ?rest, ?near⟩, ?factorizes⟩
  case block =>
    rw [Amplitude.norm_eq, Matrix2.toComplex_det, hblock, det_smul, (mem_specialUnitaryGroup_iff.1 hR).2,
      Fintype.card_bool, mul_one, sq]
    norm_num at hz ⊢
    linarith
  case rest =>
    rw [Amplitude.norm_eq, Matrix2.toComplex_det, hdetRest]
    norm_num
  case near =>
    have hzero : residual k (balanced (restOf k)) (rightOf k) (phaseOf (restOf k)) = 0 := by
      refine Dense.norm_eq_zero ?_
      rw [Dense.toMatrix_sub, Dense.toMatrix_scale, toMatrix_tensor, hbalanced, hphase, hrest, rightOf, hright, hfactors]
      simp
    rw [hzero]
    norm_num [productTolerance]
  case factorizes =>
    rw [candidate, hbalanced, hphase]
    exact ⟨by rwa [hrest], by rwa [rightOf, hright], rfl, rfl, by rw [hrest, rightOf, hright, hfactors]⟩

end Gives

end CircuitSynthesis.TwoQubit.LocalFactors
