import Mathlib
import CircuitSynthesis.Proofs.Statevector.Alignment
import CircuitSynthesis.Proofs.TwoQubit.Eigenbasis
import CircuitSynthesis.Proofs.TwoQubit.LocalFactors

/-!
# Real matrices outside the magic basis

`LocalFactors.ofOrthogonal` takes every real orthogonal matrix apart: one of determinant minus one becomes a rotation when its
last column is negated, and outside the magic basis the negation is an exchange of the wires. A matrix that is not orthogonal
may pass the checks too. The factors have determinant one all the same, since both are scaled to it, and the last check bounds
the distance of their product from the matrix; the exchange of the wires does not change that distance.
-/

namespace CircuitSynthesis.TwoQubit.LocalFactors

open Matrix
open scoped Matrix.Norms.Frobenius

variable {q : Dense ℝ 4 4} {f : LocalFactors ℝ}

section Scaling

/-- A block that can be inverted is normalized to determinant one. -/
lemma det_normalized {block : Matrix2 ℝ} (h : block.det.toComplex ≠ 0) : (normalized block).toMatrix.det = 1 := by
  have hroot := Amplitude.sqrt_mul_sqrt block.det
  rw [normalized, Matrix2.toMatrix_map_div, det_smul, Fintype.card_bool, inv_pow, sq, hroot, ← Matrix2.toComplex_det,
    inv_mul_cancel₀ h]

/-- What is left is balanced to determinant one if it can be inverted. -/
lemma det_balanced {rest : Matrix2 ℝ} (h : rest.det.toComplex ≠ 0) : (balanced rest).toMatrix.det = 1 := by
  set z : ℂ := rest.det.toComplex with hz
  -- the determinant is quadratic, so that the square of the scaling meets its modulus and its angle
  have hsquare : ((1 / √‖z‖ : ℝ) : ℂ) ^ 2 * ‖z‖ = 1 := by
    rw [← Complex.ofReal_pow, ← Complex.ofReal_mul, div_pow, one_pow, Real.sq_sqrt (norm_nonneg z),
      one_div_mul_cancel (norm_ne_zero_iff.2 h), Complex.ofReal_one]
  have hangle : Complex.exp ((-phaseOf rest : ℝ) * Complex.I) ^ 2 * Complex.exp (z.arg * Complex.I) = 1 := by
    rw [← Complex.exp_nat_mul, ← Complex.exp_add, ← Complex.exp_zero, phaseOf, Amplitude.arg_eq, Scalar.two_real]
    congr 1
    push_cast
    ring
  rw [balanced, Matrix2.toMatrix_scale, Amplitude.toComplex_polar, Amplitude.norm_eq, Scalar.sqrt_real, det_smul,
    Fintype.card_bool, ← Matrix2.toComplex_det, ← hz]
  calc _ = ((1 / √‖z‖ : ℝ) * Complex.exp ((-phaseOf rest : ℝ) * Complex.I)) ^ 2 *
        (‖z‖ * Complex.exp (z.arg * Complex.I)) := by rw [Complex.norm_mul_exp_arg_mul_I]
    _ = ((1 / √‖z‖ : ℝ) : ℂ) ^ 2 * ‖z‖ *
        (Complex.exp ((-phaseOf rest : ℝ) * Complex.I) ^ 2 * Complex.exp (z.arg * Complex.I)) := by ring
    _ = 1 := by rw [hsquare, hangle, one_mul]

variable {k : Dense (Amplitude ℝ) 4 4}

/-- The left factor that is accepted has determinant one. -/
lemma IsAccepted.det_left (h : IsAccepted k) (swapped : Bool) : (candidate k swapped).left.toMatrix.det = 1 := by
  refine det_balanced fun hzero => h.rest ?_
  rw [Amplitude.norm_eq, hzero, norm_zero]
  norm_num

/-- The right factor that is accepted has determinant one. -/
lemma IsAccepted.det_right (h : IsAccepted k) (swapped : Bool) : (candidate k swapped).right.toMatrix.det = 1 := by
  refine det_normalized fun hzero => h.block ?_
  rw [Amplitude.norm_eq, hzero, norm_zero]
  norm_num

end Scaling

section Exchange

/-- The entries of the exchange of the wires. -/
lemma exchangeWires_apply (a b c d : Bool) :
    exchangeWires (pairIndex (a, b)) (pairIndex (c, d)) = (1 : Matrix Bool Bool ℂ) a d * (1 : Matrix Bool Bool ℂ) b c := by
  rw [← tensorMatrix_mul_exchangeWires, tensorMatrix_one, Matrix.one_mul]

/-- The exchange of the wires is unitary. -/
lemma exchangeWires_mem_unitary : exchangeWires ∈ unitaryGroup (Fin 4) ℂ := by
  have hstar : star exchangeWires = exchangeWires := by
    refine ext_pairs fun a b c d => ?_
    rw [star_eq_conjTranspose, conjTranspose_apply, exchangeWires_apply, exchangeWires_apply]
    cases a <;> cases b <;> cases c <;> cases d <;> simp
  rw [mem_unitaryGroup_iff, hstar, exchangeWires_mul_self]

/-- Outside the magic basis the negation of the last column is the exchange of the wires. -/
lemma fromMagic_negation : fromMagic (diagonal ![1, 1, 1, -1]) = exchangeWires := by
  refine ext_pairs fun a b c d => ?_
  rw [exchangeWires_apply, fromMagic_diagonal_apply, Fin.sum_univ_four]
  cases a <;> cases b <;> cases c <;> cases d <;> simp [integralMagic] <;> norm_num

/-- The exchange of the wires, if there is one. -/
noncomputable def exchangeIf (swapped : Bool) : Matrix (Fin 4) (Fin 4) ℂ := if swapped then exchangeWires else 1

/-- An exchange of the wires that may be left out is unitary. -/
lemma exchangeIf_mem_unitary (swapped : Bool) : exchangeIf swapped ∈ unitaryGroup (Fin 4) ℂ := by
  cases swapped with
  | false => exact one_mem _
  | true => exact exchangeWires_mem_unitary

/-- The factors of a swapped candidate are those of the plain one, after the exchange. -/
lemma toMatrix_matrix_candidate (k : Dense (Amplitude ℝ) 4 4) (swapped : Bool) :
    (candidate k swapped).matrix.toMatrix = (candidate k false).matrix.toMatrix * exchangeIf swapped := by
  cases swapped with
  | false => exact (Matrix.mul_one _).symm
  | true => exact Dense.toMatrix_dot _ _

/-- The operator of accepted factors is near the one that they were read off. -/
lemma IsAccepted.norm_sub_le {k : Dense (Amplitude ℝ) 4 4} (h : IsAccepted k) :
    ‖(candidate k false).matrix.toMatrix - k.toMatrix‖ ≤ 1e-8 := by
  have hnear : residual k (balanced (restOf k)) (rightOf k) (phaseOf (restOf k)) ≤ 1e-8 := not_lt.1 h.near
  rwa [residual, Dense.norm_eq, Dense.toMatrix_sub, norm_sub_rev] at hnear

end Exchange

section Rotation

/-- The operator that a real matrix in the magic basis stands for. -/
noncomputable def outsideMagic (q : Dense ℝ 4 4) : Dense (Amplitude ℝ) 4 4 :=
  (magicBasis.dot q.complexify).dot magicBasis.dagger

/-- A real matrix outside the magic basis. -/
lemma toMatrix_outsideMagic (q : Dense ℝ 4 4) :
    (outsideMagic q).toMatrix = fromMagic (q.toReal.map (algebraMap ℝ ℂ)) := by
  rw [outsideMagic, Dense.toMatrix_dot, Dense.toMatrix_dot, Dense.toMatrix_dagger, Dense.toMatrix_complexify, fromMagic, magic]

/-- A matrix is its rotation after the exchange of the wires that stands in for the negation. -/
lemma fromMagic_rotationOf (q : Dense ℝ 4 4) : (outsideMagic (rotationOf q)).toMatrix * exchangeIf (decide (q.det4 < 0)) =
    fromMagic (q.toReal.map (algebraMap ℝ ℂ)) := by
  rw [toMatrix_outsideMagic, rotationOf, exchangeIf]
  by_cases hdet : q.det4 < 0
  case neg => rw [if_neg hdet, decide_eq_false hdet, if_neg Bool.false_ne_true, Matrix.mul_one]
  case pos =>
    have hmap : (diagonal ![1, 1, 1, -1] : Matrix (Fin 4) (Fin 4) ℝ).map (algebraMap ℝ ℂ) = diagonal ![1, 1, 1, -1] := by
      rw [diagonal_map (map_zero _)]
      congr 1
      ext i
      fin_cases i <;> simp
    -- the negation is made twice, once on each side of the magic basis
    rw [if_pos hdet, decide_eq_true hdet, if_pos rfl, toReal_negateLast, Matrix.map_mul, hmap, ← fromMagic_negation,
      fromMagic_mul, Matrix.mul_assoc, negation_mul_self, Matrix.mul_one]

end Rotation

/-- A matrix is taken apart if and only if its determinant is near one in modulus and the factors of its rotation are
accepted. -/
lemma ofOrthogonal_eq_ok_iff : ofOrthogonal q = .ok f ↔ ¬1e-6 < |(|q.det4| - 1)| ∧
    IsAccepted (outsideMagic (rotationOf q)) ∧ candidate (outsideMagic (rotationOf q)) (decide (q.det4 < 0)) = f := by
  have hguard : (!Scalar.isFinite q.det4 || decide (1e-6 < Scalar.abs (Scalar.abs q.det4 - 1))) = true ↔
      1e-6 < |(|q.det4| - 1)| := by
    simp
  rw [← ofTensor_eq_ok_iff]
  by_cases hdet : 1e-6 < |(|q.det4| - 1)|
  case pos =>
    have hfails : ofOrthogonal q = .error (.degenerate (.notOrthogonal q.det4)) := by
      unfold ofOrthogonal
      exact if_pos (hguard.2 hdet)
    rw [hfails]
    exact iff_of_false nofun fun h => h.1 hdet
  case neg =>
    have hrun : ofOrthogonal q = ofTensor (outsideMagic (rotationOf q)) (decide (q.det4 < 0)) := by
      unfold ofOrthogonal
      refine (if_neg (hguard.not.2 hdet)).trans ?_
      simp only [decide_eq_true_eq]
      rfl
    rw [hrun]
    exact (and_iff_right hdet).symm

/-- Whether factors stand for a real orthogonal matrix outside the magic basis. -/
structure Rebuilds (f : LocalFactors ℝ) (q : Dense ℝ 4 4) : Prop where
  left : f.left.toMatrix ∈ specialUnitaryGroup Bool ℂ
  right : f.right.toMatrix ∈ specialUnitaryGroup Bool ℂ
  swapped : f.swapped = true ↔ q.toReal.det = -1
  matrix : f.matrix.toMatrix = fromMagic (q.toReal.map (algebraMap ℝ ℂ))

/-- An orthogonal matrix is taken apart into the factors of its rotation, which is local outside the magic basis. -/
lemma ofOrthogonal_of_orthogonal (hq : q.toReal ∈ orthogonalGroup (Fin 4) ℝ) :
    ofOrthogonal q = .ok (candidate (outsideMagic (rotationOf q)) (decide (q.det4 < 0))) ∧
      (candidate (outsideMagic (rotationOf q)) false).Factorizes (outsideMagic (rotationOf q)).toMatrix := by
  obtain ⟨hrotation, hdet⟩ := mem_specialOrthogonalGroup_iff.1 (rotationOf_mem hq)
  have hlocal : IsLocal (outsideMagic (rotationOf q)).toMatrix := by
    rw [toMatrix_outsideMagic]
    exact isLocal_fromMagic hrotation hdet
  obtain ⟨haccepted, hfactors⟩ := accepted_of_isLocal hlocal
  have hmodulus : |q.det4| = 1 := by
    rw [Dense.det4_real]
    rcases det_of_mem_orthogonalGroup hq with h | h <;> rw [h] <;> norm_num
  refine ⟨ofOrthogonal_eq_ok_iff.2 ⟨?_, haccepted, rfl⟩, hfactors⟩
  rw [hmodulus]
  norm_num

/-- Outside the magic basis a rotation is factored. -/
theorem ofOrthogonal_gives (hq : q.toReal ∈ orthogonalGroup (Fin 4) ℝ) (hdet : q.toReal.det = 1) :
    ∃ f, ofOrthogonal q = .ok f ∧ f.Factorizes (fromMagic (q.toReal.map (algebraMap ℝ ℂ))) := by
  have hpos : ¬q.det4 < 0 := by
    rw [Dense.det4_real, hdet]
    norm_num
  obtain ⟨hf, hfactors⟩ := ofOrthogonal_of_orthogonal hq
  rw [rotationOf, if_neg hpos] at hf hfactors
  rw [decide_eq_false hpos] at hf
  rw [toMatrix_outsideMagic] at hfactors
  exact ⟨_, hf, hfactors⟩

/-- Every real orthogonal matrix is taken apart exactly. -/
lemma exists_rebuilds (hq : q.toReal ∈ orthogonalGroup (Fin 4) ℝ) : ∃ f, ofOrthogonal q = .ok f ∧ f.Rebuilds q := by
  obtain ⟨hf, hfactors⟩ := ofOrthogonal_of_orthogonal hq
  refine ⟨_, hf, hfactors.left, hfactors.right, ?_, ?_⟩
  · change decide (q.det4 < 0) = true ↔ _
    rw [decide_eq_true_iff, Dense.det4_real]
    rcases det_of_mem_orthogonalGroup hq with h | h <;> rw [h] <;> norm_num
  · rw [toMatrix_matrix_candidate, hfactors.toMatrix_matrix, fromMagic_rotationOf]

/-- Whatever is taken apart has factors of determinant one whose product is near it. -/
lemma near_of_ofOrthogonal (hf : ofOrthogonal q = .ok f) : f.left.toMatrix.det = 1 ∧ f.right.toMatrix.det = 1 ∧
    ‖f.matrix.toMatrix - fromMagic (q.toReal.map (algebraMap ℝ ℂ))‖ ≤ 1e-8 := by
  obtain ⟨-, haccepted, rfl⟩ := ofOrthogonal_eq_ok_iff.1 hf
  refine ⟨haccepted.det_left _, haccepted.det_right _, ?_⟩
  rw [toMatrix_matrix_candidate, ← fromMagic_rotationOf, ← Matrix.sub_mul,
    frobenius_norm_mul_of_mem_unitary (exchangeIf_mem_unitary _)]
  exact haccepted.norm_sub_le

/-- Every real orthogonal matrix is taken apart into two factors of determinant one, after an exchange of the wires where its
determinant is minus one, and the operator of the factors is the matrix outside the magic basis. Whenever any real matrix is
taken apart, the factors have determinant one and their operator is near the matrix outside the magic basis. -/
theorem ofOrthogonal_spec (q : Dense ℝ 4 4) :
    (q.toReal ∈ orthogonalGroup (Fin 4) ℝ → ∃ f, ofOrthogonal q = .ok f ∧ f.Rebuilds q) ∧
      ∀ f, ofOrthogonal q = .ok f → f.left.toMatrix.det = 1 ∧ f.right.toMatrix.det = 1 ∧
        ‖f.matrix.toMatrix - fromMagic (q.toReal.map (algebraMap ℝ ℂ))‖ ≤ 1e-8 :=
  ⟨exists_rebuilds, fun _ => near_of_ofOrthogonal⟩

section Stretched

variable {k : Dense (Amplitude ℝ) 4 4} {s : ℝ}

/-- A multiple of the identity has that multiple as its block. -/
lemma toMatrix_pickBlock_of_scalar (hs : 0.9 ≤ s) (hk : k.toMatrix = (s : ℂ) • 1) : (pickBlock k).toMatrix = (s : ℂ) • 1 := by
  have hproduct : k.toMatrix = tensorMatrix ((s : ℂ) • 1) 1 := by
    rw [hk, tensorMatrix_smul_left, tensorMatrix_one]
  have hupper : (leftBlock k 0 upperRow_lt).toMatrix = (s : ℂ) • 1 := by
    have hblock := toMatrix_leftBlock hproduct false upperRow_lt
    rwa [Matrix.smul_apply, one_apply_eq, smul_eq_mul, mul_one] at hblock
  have hlarge : ¬(leftBlock k 0 upperRow_lt).det.norm < 0.1 := by
    rw [Amplitude.norm_eq, Matrix2.toComplex_det, hupper, det_smul, det_one, mul_one, Fintype.card_bool, norm_pow,
      Complex.norm_real, Real.norm_of_nonneg (by linarith)]
    nlinarith
  rw [pickBlock, if_neg hlarge, hupper]

/-- A positive multiple of a matrix of determinant one is scaled back to it, without a phase. -/
lemma balanced_of_scalar {rest : Matrix2 ℝ} {A : Matrix Bool Bool ℂ} (hs : 0 < s) (hA : A.det = 1)
    (hrest : rest.toMatrix = (s : ℂ) • A) : (balanced rest).toMatrix = A ∧ phaseOf rest = 0 ∧ rest.det.norm = s ^ 2 := by
  have hdet : rest.det.toComplex = (s ^ 2 : ℝ) := by
    rw [Matrix2.toComplex_det, hrest, det_smul, hA, mul_one, Fintype.card_bool, Complex.ofReal_pow]
  have hnorm : rest.det.norm = s ^ 2 := by
    rw [Amplitude.norm_eq, hdet, Complex.norm_real, Real.norm_of_nonneg (sq_nonneg s)]
  have hphase : phaseOf rest = 0 := by
    rw [phaseOf, Amplitude.arg_eq, hdet, Complex.arg_ofReal_of_nonneg (sq_nonneg s), zero_div]
  have hs0 : (s : ℂ) ≠ 0 := Complex.ofReal_ne_zero.2 hs.ne'
  refine ⟨?_, hphase, hnorm⟩
  rw [balanced, hphase, hnorm, Matrix2.toMatrix_scale, Amplitude.toComplex_polar, Scalar.sqrt_real, Real.sqrt_sq hs.le, hrest,
    smul_smul]
  simp [hs0]

/-- A multiple of the identity that is near it is taken apart, though it is not unitary. -/
lemma isAccepted_of_scalar (hs : |s - 1| ≤ 1e-9) (hk : k.toMatrix = (s : ℂ) • 1) : IsAccepted k := by
  obtain ⟨hlower, hupper⟩ := abs_le.1 hs
  have hlarge : 0.9 ≤ s ^ 2 := by nlinarith
  have hpos : 0 < s := by linarith
  have hproduct : k.toMatrix = tensorMatrix ((s : ℂ) • 1) 1 := by
    rw [hk, tensorMatrix_smul_left, tensorMatrix_one]
  have hblock := toMatrix_pickBlock_of_scalar (by linarith) hk
  obtain ⟨ε, hε, hright⟩ := toMatrix_normalized (Complex.ofReal_ne_zero.2 hpos.ne') (one_mem _) hblock
  have hmem := smul_mem_specialUnitaryGroup hε (one_mem (specialUnitaryGroup Bool ℂ))
  have hrest : (restOf k).toMatrix = (s : ℂ) • ε • 1 := by
    rw [smul_comm]
    exact toMatrix_remainder hproduct (one_mem _) hε hright
  obtain ⟨hbalanced, hphase, hnorm⟩ := balanced_of_scalar hpos (mem_specialUnitaryGroup_iff.1 hmem).2 hrest
  have hsquare : ε * ε = 1 := by
    rcases hε with rfl | rfl <;> norm_num
  constructor
  case block =>
    rw [(balanced_of_scalar hpos det_one hblock).2.2]
    linarith
  case rest =>
    rw [hnorm]
    linarith
  case near =>
    -- the sign that the square root leaves is in both factors
    have hfactors : tensorMatrix (ε • 1) (ε • 1) = 1 := by
      rw [tensorMatrix_smul_left, tensorMatrix_smul_right, smul_smul, hsquare, one_smul, tensorMatrix_one]
    have hdifference : (s : ℂ) • (1 : Matrix (Fin 4) (Fin 4) ℂ) - 1 = ((s - 1 : ℝ) : ℂ) • 1 := by
      rw [Complex.ofReal_sub, Complex.ofReal_one, sub_smul, one_smul]
    have hresidual : residual k (balanced (restOf k)) (rightOf k) (phaseOf (restOf k)) = √(4 : ℕ) * |s - 1| := by
      rw [residual, Dense.norm_eq, Dense.toMatrix_sub, Dense.toMatrix_scale, toMatrix_tensor, hbalanced, hphase, rightOf, hright,
        hfactors, hk, Amplitude.toComplex_phase, Complex.ofReal_zero, zero_mul, Complex.exp_zero, one_smul, hdifference,
        frobenius_norm_smul_one, Complex.norm_real, Real.norm_eq_abs]
    have hroot : √(4 : ℕ) = 2 := by norm_num
    rw [hresidual, hroot, productTolerance]
    linarith

/-- A multiple of the identity that is near it is taken apart, though it is not orthogonal. -/
lemma exists_ofOrthogonal_of_scalar (hs : |s - 1| ≤ 1e-9) (hq : q.toReal = s • 1) : ∃ f, ofOrthogonal q = .ok f := by
  obtain ⟨hlower, hupper⟩ := abs_le.1 hs
  have hdet : q.det4 = s ^ 4 := by
    rw [Dense.det4_real, hq, det_smul, det_one, mul_one, Fintype.card_fin]
  have hpos : 0 < q.det4 := by
    rw [hdet]
    exact pow_pos (by linarith) 4
  have hnear : |q.det4 - 1| ≤ 1e-6 := by
    have hfactor : s ^ 4 - 1 = (s - 1) * (s ^ 3 + s ^ 2 + s + 1) := by ring
    have hs0 : 0 ≤ s := by linarith
    have hs2 : s ≤ 5 / 4 := by linarith
    have hbound : |s ^ 3 + s ^ 2 + s + 1| ≤ 8 :=
      calc |s ^ 3 + s ^ 2 + s + 1| = s ^ 3 + s ^ 2 + s + 1 := abs_of_nonneg (by positivity)
        _ ≤ (5 / 4) ^ 3 + (5 / 4) ^ 2 + 5 / 4 + 1 := by gcongr
        _ ≤ 8 := by norm_num
    rw [hdet, hfactor, abs_mul]
    nlinarith [abs_nonneg (s - 1)]
  have hk : (outsideMagic q).toMatrix = (s : ℂ) • 1 := by
    have hmap : (s • (1 : Matrix (Fin 4) (Fin 4) ℝ)).map (algebraMap ℝ ℂ) = (s : ℂ) • 1 := by
      ext i j
      by_cases hij : i = j <;> simp [hij]
    rw [toMatrix_outsideMagic, hq, hmap, fromMagic_smul, fromMagic_one]
  have hrotation : rotationOf q = q := if_neg hpos.le.not_gt
  refine ⟨_, ofOrthogonal_eq_ok_iff.2 ⟨?_, ?_, rfl⟩⟩
  · rw [abs_of_pos hpos]
    exact not_lt.2 hnear
  · rw [hrotation]
    exact isAccepted_of_scalar hs hk

end Stretched

/-- A mirror is taken apart after an exchange of the wires. The identity is taken apart after a stretch too small to notice. -/
theorem ofOrthogonal_spec_mirror :
    (∃ f : LocalFactors ℝ, ofOrthogonal (negateLast .identity) = .ok f ∧ f.Rebuilds (negateLast .identity) ∧ f.swapped = true) ∧
      ∃ f : LocalFactors ℝ, ofOrthogonal (.ofDiagonal fun _ => 1 + 1e-9) = .ok f ∧ f.left.toMatrix.det = 1 ∧
        f.right.toMatrix.det = 1 := by
  constructor
  · have hdet : (negateLast .identity : Dense ℝ 4 4).toReal.det = -1 := by
      rw [toReal_negateLast, Dense.toReal_identity, Matrix.one_mul, det_diagonal, Fin.prod_univ_four]
      simp
    have horthogonal : (negateLast .identity : Dense ℝ 4 4).toReal ∈ orthogonalGroup (Fin 4) ℝ := by
      rw [toReal_negateLast, Dense.toReal_identity, Matrix.one_mul]
      exact negation_mem
    obtain ⟨f, hf, hrebuilds⟩ := (ofOrthogonal_spec (negateLast .identity)).1 horthogonal
    exact ⟨f, hf, hrebuilds, hrebuilds.swapped.2 hdet⟩
  · have hscalar : (Dense.ofDiagonal fun _ => 1 + 1e-9 : Dense ℝ 4 4).toReal = (1 + 1e-9 : ℝ) • 1 := by
      ext i j
      rw [Dense.ofDiagonal, Dense.toReal_ofFn, Matrix.of_apply, Matrix.smul_apply, one_apply]
      split <;> simp
    obtain ⟨f, hf⟩ := exists_ofOrthogonal_of_scalar (by norm_num) hscalar
    obtain ⟨hleft, hright, -⟩ := (ofOrthogonal_spec _).2 f hf
    exact ⟨f, hf, hleft, hright⟩

end CircuitSynthesis.TwoQubit.LocalFactors
