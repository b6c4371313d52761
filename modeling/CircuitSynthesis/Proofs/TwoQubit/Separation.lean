import Mathlib
import CircuitSynthesis.Proofs.TwoQubit.Eigenbasis

/-!
# Separated eigenphases

The real and the imaginary part of a symmetric unitary matrix are symmetric and commute, so that their joint eigenvectors span
the space. Where a real combination of the two parts takes different values on different eigenvalues, both parts are polynomials
in the combination: interpolation through its values gives a polynomial that is right on every joint eigenvector. Hence every
basis of eigenvectors of the combination diagonalizes the matrix, however its eigenvectors are chosen inside an eigenspace.
-/

namespace CircuitSynthesis.TwoQubit

open Matrix
open Polynomial (aeval)

variable {n : ℕ}

section Polynomials

variable {S : Matrix (Fin n) (Fin n) ℝ}

/-- A polynomial in a matrix acts on an eigenvector through the eigenvalue. -/
lemma aeval_mulVec {s : ℝ} {v : Fin n → ℝ} (h : S *ᵥ v = s • v) (p : Polynomial ℝ) : aeval S p *ᵥ v = p.eval s • v := by
  induction p using Polynomial.induction_on' with
  | add p q hp hq => rw [map_add, add_mulVec, hp, hq, Polynomial.eval_add, add_smul]
  | monomial k c =>
    have hpow : S ^ k *ᵥ v = s ^ k • v := by
      induction k with
      | zero => rw [pow_zero, pow_zero, one_mulVec, one_smul]
      | succ k ih => rw [pow_succ', ← mulVec_mulVec, ih, mulVec_smul, h, smul_smul, pow_succ]
    rw [Polynomial.aeval_monomial, ← Algebra.smul_def, smul_mulVec, hpow, smul_smul, Polynomial.eval_monomial]

/-- A polynomial of a matrix acts on its eigenvectors by its values. -/
lemma aeval_mul_of_eigenvectors {P : Matrix (Fin n) (Fin n) ℝ} {values : Fin n → ℝ} (h : S * P = P * diagonal values)
    (p : Polynomial ℝ) : aeval S p * P = P * diagonal fun i => p.eval (values i) := by
  ext i j
  have hcolumn : S *ᵥ P.col j = values j • P.col j := by
    ext i
    have hentry := congrFun (congrFun h i) j
    rw [mul_diagonal] at hentry
    rw [Pi.smul_apply, smul_eq_mul, mul_comm]
    exact hentry
  have hentry := congrFun (aeval_mulVec hcolumn p) i
  rw [mul_diagonal, mul_comm]
  exact hentry

end Polynomials

section Joint

variable {X Y A B : Matrix (Fin n) (Fin n) ℝ}

/-- Matrices that agree on the joint eigenvectors of two symmetric matrices that commute are equal. -/
lemma eq_of_jointEigenvectors (hX : X.IsSymm) (hY : Y.IsSymm) (hcomm : Commute X Y)
    (h : ∀ (α β : ℝ) (v : Fin n → ℝ), X *ᵥ v = α • v → Y *ᵥ v = β • v → A *ᵥ v = B *ᵥ v) : A = B := by
  have hsymmetric {Z : Matrix (Fin n) (Fin n) ℝ} (hZ : Z.IsSymm) : Z.toEuclideanLin.IsSymmetric := by
    rw [isSymmetric_toEuclideanLin_iff, IsHermitian, conjTranspose_eq_transpose_of_trivial]
    exact hZ
  have hcommute : Commute X.toEuclideanLin Y.toEuclideanLin := hcomm.map (toLpLinAlgEquiv 2)
  have hspan := (hsymmetric hX).iSup_iSup_eigenspace_inf_eigenspace_eq_top_of_commute (hsymmetric hY) hcommute
  -- the joint eigenspaces span the space, and the matrices agree on each of them
  have hagree : ⊤ ≤ LinearMap.eqLocus A.toEuclideanLin B.toEuclideanLin := by
    rw [← hspan]
    refine iSup_le fun α => iSup_le fun β => ?_
    rintro x ⟨hx, hy⟩
    rw [SetLike.mem_coe, Module.End.mem_eigenspace_iff] at hx hy
    exact congrArg (WithLp.toLp 2) (h α β x.ofLp (congrArg WithLp.ofLp hx) (congrArg WithLp.ofLp hy))
  exact toEuclideanLin.injective (LinearMap.ext fun x => hagree trivial)

/-- What a function of the joint eigenvalues is on the joint eigenvectors is a polynomial in a combination of the two matrices
that is different for different joint eigenvalues. -/
lemma exists_eq_aeval (part : ℂ → ℝ) (hX : X.IsSymm) (hY : Y.IsSymm) (hcomm : Commute X Y) {a b : ℝ} {T : Set ℂ} (hT : T.Finite)
    (hjoint : ∀ (α β : ℝ) (v : Fin n → ℝ), v ≠ 0 → X *ᵥ v = α • v → Y *ᵥ v = β • v → (⟨α, β⟩ : ℂ) ∈ T)
    (hinj : Set.InjOn (fun μ : ℂ => μ.re * a + μ.im * b) T)
    (hA : ∀ (α β : ℝ) (v : Fin n → ℝ), X *ᵥ v = α • v → Y *ᵥ v = β • v → A *ᵥ v = part ⟨α, β⟩ • v) :
    ∃ p : Polynomial ℝ, A = aeval (a • X + b • Y) p := by
  -- the nodes are the values of the combination, which are different for different joint eigenvalues
  refine ⟨Lagrange.interpolate hT.toFinset (fun μ => μ.re * a + μ.im * b) part, ?_⟩
  refine eq_of_jointEigenvectors hX hY hcomm fun α β v hx hy => ?_
  by_cases hv : v = 0
  case pos => rw [hv, mulVec_zero, mulVec_zero]
  case neg =>
    have hmem : (⟨α, β⟩ : ℂ) ∈ hT.toFinset := hT.mem_toFinset.2 (hjoint α β v hv hx hy)
    have hcombination : (a • X + b • Y) *ᵥ v = (α * a + β * b) • v := by
      rw [add_mulVec, smul_mulVec, smul_mulVec, hx, hy, smul_smul, smul_smul, ← add_smul, mul_comm a, mul_comm b]
    have hnode := Lagrange.eval_interpolate_at_node part (by rwa [hT.coe_toFinset]) hmem
    rw [hA α β v hx hy, aeval_mulVec hcombination]
    exact congrArg (· • v) hnode.symm

end Joint

section Parts

variable {M : Matrix (Fin n) (Fin n) ℂ}

/-- The two parts of a symmetric unitary matrix commute. -/
lemma commute_parts (hM : M ∈ unitaryGroup (Fin n) ℂ) (hsymm : M.IsSymm) :
    Commute (M.map Complex.re) (M.map Complex.im) := by
  -- the commutator is the imaginary part of `M` times its adjoint, which is the identity
  ext i j
  have hentry := congrArg Complex.im (congrFun (congrFun (mem_unitaryGroup_iff.1 hM) i) j)
  have hone : ((1 : Matrix (Fin n) (Fin n) ℂ) i j).im = 0 := by
    rw [one_apply]
    split <;> rfl
  rw [hone, Matrix.mul_apply, Complex.im_sum] at hentry
  rw [← sub_eq_zero, ← neg_eq_zero, ← hentry, Matrix.mul_apply, Matrix.mul_apply, ← Finset.sum_sub_distrib,
    ← Finset.sum_neg_distrib]
  refine Finset.sum_congr rfl fun k _ => ?_
  rw [star_apply, hsymm.apply k j, Complex.mul_im, Complex.star_def, Complex.conj_re, Complex.conj_im, map_apply, map_apply,
    map_apply, map_apply]
  ring

/-- Joint eigenvalues of the parts are eigenvalues. -/
lemma mem_spectrum_of_parts {α β : ℝ} {v : Fin n → ℝ} (hv : v ≠ 0) (hre : M.map Complex.re *ᵥ v = α • v)
    (him : M.map Complex.im *ᵥ v = β • v) : (⟨α, β⟩ : ℂ) ∈ spectrum ℂ M := by
  let w (i : Fin n) : ℂ := v i
  have hw : w ≠ 0 := fun h => hv (funext fun i => Complex.ofReal_eq_zero.1 (congrFun h i))
  have heigen : M *ᵥ w = (⟨α, β⟩ : ℂ) • w := by
    ext i
    apply Complex.ext
    · have hentry := congrFun hre i
      rw [mulVec, dotProduct, Complex.re_sum, Pi.smul_apply, smul_eq_mul, Complex.re_mul_ofReal]
      simp only [w, Complex.re_mul_ofReal]
      exact hentry
    · have hentry := congrFun him i
      rw [mulVec, dotProduct, Complex.im_sum, Pi.smul_apply, smul_eq_mul, Complex.im_mul_ofReal]
      simp only [w, Complex.im_mul_ofReal]
      exact hentry
  rw [← spectrum_toLin']
  exact (Module.End.hasEigenvalue_of_hasEigenvector ⟨Module.End.mem_eigenspace_iff.2 heigen, hw⟩).mem_spectrum

/-- The angles of the eigenvalues. -/
def eigenphases (M : Matrix (Fin n) (Fin n) ℂ) : Set ℝ := Complex.arg '' spectrum ℂ M

/-- Whether a combination of cosine and sine takes different values on different angles. -/
def Separates (a b : ℝ) (angles : Set ℝ) : Prop := angles.InjOn fun t => a * Real.cos t + b * Real.sin t

open scoped Matrix.Norms.L2Operator in
/-- A combination that separates the eigenphases of a unitary matrix separates its eigenvalues. -/
lemma Separates.injOn_spectrum {a b : ℝ} (hM : M ∈ unitaryGroup (Fin n) ℂ)
    (h : Separates a b (eigenphases M)) : Set.InjOn (fun μ : ℂ => μ.re * a + μ.im * b) (spectrum ℂ M) := by
  have hnorm {μ : ℂ} (hμ : μ ∈ spectrum ℂ M) : ‖μ‖ = 1 := spectrum.norm_eq_one_of_unitary hM hμ
  have hpolar {μ : ℂ} (hμ : μ ∈ spectrum ℂ M) : μ.re * a + μ.im * b = a * Real.cos μ.arg + b * Real.sin μ.arg := by
    have hre := Complex.norm_mul_cos_arg μ
    have him := Complex.norm_mul_sin_arg μ
    rw [hnorm hμ, one_mul] at hre him
    rw [hre, him, mul_comm a, mul_comm b]
  intro μ hμ ν hν heq
  have harg : μ.arg = ν.arg := by
    refine h ⟨μ, hμ, rfl⟩ ⟨ν, hν, rfl⟩ ?_
    dsimp only at heq ⊢
    rw [← hpolar hμ, ← hpolar hν, heq]
  exact Complex.ext_norm_arg ((hnorm hμ).trans (hnorm hν).symm) harg

/-- Both parts of a symmetric unitary matrix are polynomials in a combination that separates the eigenphases. -/
lemma exists_parts_eq_aeval {a b : ℝ} (hM : M ∈ unitaryGroup (Fin n) ℂ) (hsymm : M.IsSymm)
    (h : Separates a b (eigenphases M)) : ∃ p q : Polynomial ℝ,
      M.map Complex.re = aeval (a • M.map Complex.re + b • M.map Complex.im) p ∧
        M.map Complex.im = aeval (a • M.map Complex.re + b • M.map Complex.im) q := by
  have hjoint (α β : ℝ) (v : Fin n → ℝ) (hv : v ≠ 0) := mem_spectrum_of_parts (M := M) (α := α) (β := β) hv
  have hsymmRe : (M.map Complex.re).IsSymm := hsymm.map _
  have hsymmIm : (M.map Complex.im).IsSymm := hsymm.map _
  obtain ⟨p, hp⟩ := exists_eq_aeval Complex.re hsymmRe hsymmIm (commute_parts hM hsymm) M.finite_spectrum hjoint
    (h.injOn_spectrum hM) fun _ _ _ hx _ => hx
  obtain ⟨q, hq⟩ := exists_eq_aeval Complex.im hsymmRe hsymmIm (commute_parts hM hsymm) M.finite_spectrum hjoint
    (h.injOn_spectrum hM) fun _ _ _ _ hy => hy
  exact ⟨p, q, hp, hq⟩

end Parts

section Eigenbasis

variable {m : Dense (Amplitude ℝ) 4 4} {p : Dense ℝ 4 4} {a b : ℝ}

/-- The congruence of a matrix, by its real and its imaginary part. -/
lemma toMatrix_congruence_parts (p : Dense ℝ 4 4) (m : Dense (Amplitude ℝ) 4 4) : (congruence p m).toMatrix =
    (p.toRealᵀ * m.toMatrix.map Complex.re * p.toReal).map (algebraMap ℝ ℂ) +
      Complex.I • (p.toRealᵀ * m.toMatrix.map Complex.im * p.toReal).map (algebraMap ℝ ℂ) := by
  have hparts : m.toMatrix =
      (m.toMatrix.map Complex.re).map (algebraMap ℝ ℂ) + Complex.I • (m.toMatrix.map Complex.im).map (algebraMap ℝ ℂ) := by
    ext i j
    exact (Complex.re_add_im _).symm.trans (congrArg _ (mul_comm _ _))
  rw [toMatrix_congruence]
  nth_rewrite 1 [hparts]
  rw [Matrix.mul_add, Matrix.add_mul, Matrix.mul_smul, Matrix.smul_mul, ← transpose_map, Matrix.map_mul, Matrix.map_mul,
    Matrix.map_mul, Matrix.map_mul]

/-- A basis of eigenvectors of a combination that separates the eigenphases diagonalizes the matrix. -/
theorem isDiag_congruence_of_separates (hm : m.toMatrix ∈ unitaryGroup (Fin 4) ℂ) (hsymm : m.toMatrix.IsSymm)
    (hp : IsEigenbasis p (mixing m a b)) (h : Separates a b (eigenphases m.toMatrix)) :
    (congruence p m).toMatrix.IsDiag := by
  obtain ⟨values, hvalues⟩ := hp.eigenvectors
  rw [toReal_mixing] at hvalues
  obtain ⟨f, g, hf, hg⟩ := exists_parts_eq_aeval hm hsymm h
  have hdiagonal (r : Polynomial ℝ) :
      p.toRealᵀ * aeval (a • m.toMatrix.map Complex.re + b • m.toMatrix.map Complex.im) r * p.toReal =
        diagonal fun i => r.eval (values i) := by
    rw [Matrix.mul_assoc, aeval_mul_of_eigenvectors hvalues, ← Matrix.mul_assoc,
      (mem_orthogonalGroup_iff' _ _).1 hp.orthonormal, Matrix.one_mul]
  have hre := hdiagonal f
  have him := hdiagonal g
  rw [← hf] at hre
  rw [← hg] at him
  rw [toMatrix_congruence_parts, hre, him, diagonal_map (map_zero _), diagonal_map (map_zero _)]
  exact (isDiag_diagonal _).add ((isDiag_diagonal _).smul _)

end Eigenbasis

end CircuitSynthesis.TwoQubit
