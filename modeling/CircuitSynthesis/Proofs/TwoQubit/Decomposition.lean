import Mathlib
import CircuitSynthesis.Proofs.TwoQubit.StandardKernel
import CircuitSynthesis.Proofs.TwoQubit.OrthogonalFactors
import CircuitSynthesis.Proofs.TwoQubit.QuarterTurns

/-!
# The decomposition of an operator on two wires

Scaled to determinant one and written in the magic basis, a unitary operator is a matrix `M`. Where a rotation `P` makes
`Pᵀ·Mᵀ·M·P` diagonal, the square roots of the diagonal are taken with product one, and dividing `M·P` by them leaves a matrix
that is unitary and orthogonal, hence real, and of determinant one. This matrix and `Pᵀ` are local outside the magic
basis, and the diagonal is an interaction: `ofUnitary_matrix` says that the decomposition then exists and stands for the
operator.
-/

namespace CircuitSynthesis.TwoQubit

open Matrix
open Complex (I exp)

section Real

variable {n : ℕ} {K : Matrix (Fin n) (Fin n) ℂ}

/-- A matrix that is unitary and orthogonal is real. -/
lemma map_re_map_eq (hunitary : K ∈ unitaryGroup (Fin n) ℂ) (horthogonal : Kᵀ * K = 1) :
    (K.map Complex.re).map (algebraMap ℝ ℂ) = K := by
  have hinverse : Kᵀ = Kᴴ := by
    calc Kᵀ = Kᵀ * (K * Kᴴ) := by rw [← star_eq_conjTranspose, mem_unitaryGroup_iff.1 hunitary, Matrix.mul_one]
      _ = Kᴴ := by rw [← Matrix.mul_assoc, horthogonal, Matrix.one_mul]
  ext i j
  have hconj : K i j = (starRingEnd ℂ) (K i j) := congrFun (congrFun hinverse j) i
  exact (Complex.conj_eq_iff_re.1 hconj.symm)

/-- The real part of a matrix of determinant one that is unitary and orthogonal is a rotation. -/
lemma map_re_mem (hunitary : K ∈ unitaryGroup (Fin n) ℂ) (horthogonal : Kᵀ * K = 1) (hdet : K.det = 1) :
    K.map Complex.re ∈ specialOrthogonalGroup (Fin n) ℝ := by
  have hreal := map_re_map_eq hunitary horthogonal
  rw [mem_specialOrthogonalGroup_iff, mem_orthogonalGroup_iff']
  constructor
  · apply Matrix.map_injective (algebraMap ℝ ℂ).injective
    dsimp only
    rw [Matrix.map_mul, transpose_map, hreal, horthogonal, Matrix.map_one _ (map_zero _) (map_one _)]
  · apply (algebraMap ℝ ℂ).injective
    rw [RingHom.map_det, RingHom.mapMatrix_apply, hreal, hdet, map_one]

/-- A real orthogonal matrix is unitary. -/
lemma map_mem_unitaryGroup {Q : Matrix (Fin n) (Fin n) ℝ} (hQ : Q ∈ orthogonalGroup (Fin n) ℝ) :
    Q.map (algebraMap ℝ ℂ) ∈ unitaryGroup (Fin n) ℂ := by
  have hadjoint : (Q.map (algebraMap ℝ ℂ))ᴴ = Qᵀ.map (algebraMap ℝ ℂ) := by
    ext i j
    exact Complex.conj_ofReal _
  rw [mem_unitaryGroup_iff', star_eq_conjTranspose, hadjoint, ← Matrix.map_mul, (mem_orthogonalGroup_iff' _ _).1 hQ,
    Matrix.map_one _ (map_zero _) (map_one _)]

/-- A real matrix of determinant one keeps its determinant among the complex numbers. -/
lemma det_map {Q : Matrix (Fin n) (Fin n) ℝ} (hdet : Q.det = 1) : (Q.map (algebraMap ℝ ℂ)).det = 1 := by
  rw [← RingHom.mapMatrix_apply, ← RingHom.map_det, hdet, map_one]

end Real

section Scaling

variable {u : Dense (Amplitude ℝ) 4 4}

/-- A quarter of the angle of the determinant. -/
noncomputable def quarterPhase (u : Dense (Amplitude ℝ) 4 4) : ℝ := u.det4.arg / (Scalar.two * Scalar.two)

/-- An operator scaled to determinant one. -/
noncomputable def special (u : Dense (Amplitude ℝ) 4 4) : Dense (Amplitude ℝ) 4 4 :=
  u.scale (Amplitude.phase (-quarterPhase u))

/-- An operator scaled to determinant one, in the magic basis. -/
noncomputable def inMagicBasis (u : Dense (Amplitude ℝ) 4 4) : Dense (Amplitude ℝ) 4 4 :=
  (magicBasis.dagger.dot (special u)).dot magicBasis

/-- The symmetric matrix that the decomposition of an operator diagonalizes. -/
noncomputable def gram (u : Dense (Amplitude ℝ) 4 4) : Dense (Amplitude ℝ) 4 4 :=
  (inMagicBasis u).transpose.dot (inMagicBasis u)

/-- The determinant of a unitary matrix has modulus one. -/
lemma norm_det4 (hu : u.toMatrix ∈ unitaryGroup (Fin 4) ℂ) : ‖u.toMatrix.det‖ = 1 :=
  CStarRing.norm_of_mem_unitary (det_of_mem_unitary hu)

/-- Scaling to determinant one turns an operator back by a quarter of the phase of its determinant. -/
lemma toMatrix_special : (special u).toMatrix = exp ((-quarterPhase u : ℝ) * I) • u.toMatrix := by
  rw [special, Dense.toMatrix_scale, Amplitude.toComplex_phase]

/-- Turning forward again gives the operator. -/
lemma smul_special : exp (quarterPhase u * I) • (special u).toMatrix = u.toMatrix := by
  rw [toMatrix_special, smul_smul, ← Complex.exp_add]
  simp

/-- The scaled operator has determinant one. -/
lemma det_special (hu : u.toMatrix ∈ unitaryGroup (Fin 4) ℂ) : (special u).toMatrix.det = 1 := by
  have hdet : exp (u.toMatrix.det.arg * I) = u.toMatrix.det := Complex.exp_arg_mul_I_of_norm_eq_one (norm_det4 hu)
  rw [toMatrix_special, det_smul, Fintype.card_fin, ← Complex.exp_nat_mul, quarterPhase, Amplitude.arg_eq, Dense.toComplex_det4]
  nth_rewrite 2 [← hdet]
  rw [← Complex.exp_add, Scalar.two_real, ← Complex.exp_zero]
  congr 1
  push_cast
  ring

/-- The scaled operator is unitary. -/
lemma special_mem_unitary (hu : u.toMatrix ∈ unitaryGroup (Fin 4) ℂ) : (special u).toMatrix ∈ unitaryGroup (Fin 4) ℂ := by
  rw [toMatrix_special]
  exact Unitary.smul_mem_of_mem (Complex.exp_ofReal_mul_I_mem_unitary _) hu

/-- The change to the magic basis, written out. -/
lemma toMatrix_inMagicBasis : (inMagicBasis u).toMatrix = magicᴴ * (special u).toMatrix * magic := by
  rw [inMagicBasis, Dense.toMatrix_dot, Dense.toMatrix_dot, Dense.toMatrix_dagger, magic]

/-- The change to the magic basis is undone. -/
lemma fromMagic_inMagicBasis : fromMagic (inMagicBasis u).toMatrix = (special u).toMatrix := by
  have hunitary : magic * magicᴴ = 1 := mem_unitaryGroup_iff.1 magic_mem_unitary
  calc magic * (inMagicBasis u).toMatrix * magicᴴ = (magic * magicᴴ) * (special u).toMatrix * (magic * magicᴴ) := by
        rw [toMatrix_inMagicBasis]
        noncomm_ring
    _ = (special u).toMatrix := by rw [hunitary, Matrix.one_mul, Matrix.mul_one]

/-- In the magic basis the operator has determinant one. -/
lemma det_inMagicBasis (hu : u.toMatrix ∈ unitaryGroup (Fin 4) ℂ) : (inMagicBasis u).toMatrix.det = 1 := by
  rw [← det_fromMagic, fromMagic_inMagicBasis, det_special hu]

/-- In the magic basis the operator is unitary. -/
lemma inMagicBasis_mem_unitary (hu : u.toMatrix ∈ unitaryGroup (Fin 4) ℂ) :
    (inMagicBasis u).toMatrix ∈ unitaryGroup (Fin 4) ℂ := by
  rw [toMatrix_inMagicBasis]
  exact mul_mem (mul_mem (Unitary.star_mem magic_mem_unitary) (special_mem_unitary hu)) magic_mem_unitary

end Scaling

section HalfPhases

variable {d : Dense (Amplitude ℝ) 4 4}

/-- The half phases sum to zero, since the last makes up for the others. -/
lemma sum_halfPhases (d : Dense (Amplitude ℝ) 4 4) : ∑ i, Decomposition.halfPhases d i = 0 := by
  rw [Fin.sum_univ_four]
  simp [Decomposition.halfPhases]

/-- The half phases multiply to one. -/
lemma prod_exp_halfPhases (d : Dense (Amplitude ℝ) 4 4) : ∏ i, exp (Decomposition.halfPhases d i * I) = 1 := by
  rw [← Complex.exp_sum, ← Finset.sum_mul, ← Complex.ofReal_sum, sum_halfPhases]
  simp

/-- The half phases of a diagonal with product one are those of its square roots. -/
lemma exp_halfPhases_mul_self (hnorm : ∀ i, ‖d.toMatrix i i‖ = 1) (hprod : ∏ i, d.toMatrix i i = 1) (i : Fin 4) :
    exp (Decomposition.halfPhases d i * I) * exp (Decomposition.halfPhases d i * I) = d.toMatrix i i := by
  let h := Decomposition.halfPhases d
  let e (i : Fin 4) := exp (h i * I)
  have hroot (i : Fin 4) (hi : i ≠ 3) : e i * e i = d.toMatrix i i := by
    have hhalf : h i = (d.toMatrix i i).arg / 2 := by
      simp only [h, Decomposition.halfPhases, if_neg hi, Amplitude.arg_eq, Scalar.two_real]
      rfl
    rw [← Complex.exp_arg_mul_I_of_norm_eq_one (hnorm i), ← Complex.exp_add, hhalf]
    congr 1
    push_cast
    ring
  by_cases hi : i = 3
  · -- the last root is what is missing to the product
    have hproduct : e 0 * e 1 * e 2 * e 3 = 1 := by
      rw [← Fin.prod_univ_four]
      exact prod_exp_halfPhases d
    have hdiagonal : (e 0 * e 0) * (e 1 * e 1) * (e 2 * e 2) * d.toMatrix 3 3 = 1 := by
      rw [hroot 0 (by decide), hroot 1 (by decide), hroot 2 (by decide), ← Fin.prod_univ_four (fun i => d.toMatrix i i)]
      exact hprod
    have hne : e 0 * e 1 * e 2 ≠ 0 := left_ne_zero_of_mul_eq_one hproduct
    rw [hi]
    apply mul_left_cancel₀ (mul_ne_zero hne hne)
    linear_combination (e 0 * e 1 * e 2 * e 3 + 1) * hproduct - hdiagonal
  · exact hroot i hi

end HalfPhases

section Diagonal

variable {u : Dense (Amplitude ℝ) 4 4} {p : Dense ℝ 4 4}

/-- The congruence of the symmetric matrix, written out. -/
lemma toMatrix_congruence_gram : (congruence p (gram u)).toMatrix =
    (p.toReal.map (algebraMap ℝ ℂ))ᵀ * ((inMagicBasis u).toMatrixᵀ * (inMagicBasis u).toMatrix) *
      p.toReal.map (algebraMap ℝ ℂ) := by
  rw [toMatrix_congruence, gram, Dense.toMatrix_dot, Dense.toMatrix_transpose]

/-- The congruence by an orthogonal matrix is unitary. -/
lemma congruence_gram_mem_unitary (hu : u.toMatrix ∈ unitaryGroup (Fin 4) ℂ) (hp : p.toReal ∈ orthogonalGroup (Fin 4) ℝ) :
    (congruence p (gram u)).toMatrix ∈ unitaryGroup (Fin 4) ℂ := by
  have hP := map_mem_unitaryGroup hp
  have hM := inMagicBasis_mem_unitary hu
  rw [toMatrix_congruence_gram]
  exact mul_mem (mul_mem (transpose_mem_unitaryGroup_iff.2 hP) (mul_mem (transpose_mem_unitaryGroup_iff.2 hM) hM)) hP

/-- The congruence by a rotation has determinant one. -/
lemma det_congruence_gram (hu : u.toMatrix ∈ unitaryGroup (Fin 4) ℂ) (hdet : p.toReal.det = 1) :
    (congruence p (gram u)).toMatrix.det = 1 := by
  rw [toMatrix_congruence_gram, det_mul, det_mul, det_mul, det_transpose, det_transpose, det_map hdet, det_inMagicBasis hu]
  norm_num

end Diagonal

section Factors

variable {M P D : Matrix (Fin 4) (Fin 4) ℂ} {e : Fin 4 → ℂ}

/-- Dividing by the square roots of a diagonalized square leaves an orthogonal matrix. -/
lemma transpose_mul_divided (hdiag : Pᵀ * (Mᵀ * M) * P = diagonal fun i => e i * e i) (he : ∀ i, e i ≠ 0) :
    (M * P * diagonal fun i => (e i)⁻¹)ᵀ * (M * P * diagonal fun i => (e i)⁻¹) = 1 := by
  calc (M * P * diagonal fun i => (e i)⁻¹)ᵀ * (M * P * diagonal fun i => (e i)⁻¹)
      = (diagonal fun i => (e i)⁻¹) * (Pᵀ * (Mᵀ * M) * P) * diagonal fun i => (e i)⁻¹ := by
        rw [transpose_mul, transpose_mul, diagonal_transpose]
        noncomm_ring
    _ = 1 := by
        rw [hdiag, diagonal_mul_diagonal, diagonal_mul_diagonal, ← diagonal_one]
        congr 1
        funext i
        have := he i
        field_simp

end Factors

/-- Whether the routines of a kernel are exact on what the decomposition of an operator hands to them: the operator
itself, and the mixings of the symmetric matrix whose eigenvectors are wanted. -/
structure SpectralKernel.IsExactOn (kernel : SpectralKernel ℝ) (u : Dense (Amplitude ℝ) 4 4) : Prop where
  singular : ∃ f, kernel.singular u = some f ∧ f.IsExact u
  /-- The eigenvectors of every mixing, a symmetric matrix by `isSymm_mixing`, are an orthonormal basis. -/
  eigenvectors : ∀ a b, IsEigenbasis (kernel.eigenvectors (mixing (gram u) a b)) (mixing (gram u) a b)

/-- A kernel that factors an operator and finds the eigenvectors of every symmetric matrix is exact on the operator. -/
lemma SpectralKernel.IsExactOn.of_symmetric {kernel : SpectralKernel ℝ} {u : Dense (Amplitude ℝ) 4 4} {f : SingularFactors ℝ}
    (hf : kernel.singular u = some f) (hexact : f.IsExact u)
    (heigen : ∀ s : Dense ℝ 4 4, s.toReal.IsSymm → IsEigenbasis (kernel.eigenvectors s) s) : kernel.IsExactOn u where
  singular := ⟨f, hf, hexact⟩
  eigenvectors := isEigenbasis_mixing heigen (inMagicBasis u)

namespace Decomposition

variable {kernel : SpectralKernel ℝ} {seed : UInt64} {attempts : ℕ} {u : Dense (Amplitude ℝ) 4 4} {p : Dense ℝ 4 4}

/-- The matrix whose local factors come after the interaction. -/
noncomputable def outerMatrix (u : Dense (Amplitude ℝ) 4 4) (p : Dense ℝ 4 4) : Dense (Amplitude ℝ) 4 4 :=
  ((inMagicBasis u).dot p.complexify).dot (.ofDiagonal fun i => Amplitude.phase (-halfPhases (congruence p (gram u)) i))

/-- The decomposition, where no step fails. -/
lemma ofUnitary_eq_ok {outer inner : LocalFactors ℝ} (hsize : ¬u.det4.norm < 1e-12) (hclosest : closestUnitary kernel u = .ok u)
    (hp : diagonalize kernel (kernel.draws seed) attempts (gram u) = .ok p)
    (houter : LocalFactors.ofOrthogonal ((outerMatrix u p).map (·.re)) = .ok outer)
    (hinner : LocalFactors.ofOrthogonal p.transpose = .ok inner) (hnot : ¬(outer.swapped || inner.swapped) = true) :
    ofUnitary kernel seed attempts u = .ok (assemble outer inner
      ((halfPhases (congruence p (gram u)) 0 + halfPhases (congruence p (gram u)) 2) / Scalar.two)
      ((halfPhases (congruence p (gram u)) 1 + halfPhases (congruence p (gram u)) 2) / Scalar.two)
      ((halfPhases (congruence p (gram u)) 0 + halfPhases (congruence p (gram u)) 1) / Scalar.two) (quarterPhase u)) := by
  have hcheck : ¬(!Scalar.isFinite u.det4.norm || decide (u.det4.norm < 1e-12)) = true := by
    simpa using hsize
  unfold ofUnitary
  refine (if_neg hcheck).trans ?_
  rw [hclosest]
  change (diagonalize kernel (kernel.draws seed) attempts (gram u) >>= _) = _
  rw [hp]
  change (LocalFactors.ofOrthogonal ((outerMatrix u p).map (·.re)) >>= _) = _
  rw [houter]
  change (LocalFactors.ofOrthogonal p.transpose >>= _) = _
  rw [hinner]
  exact if_neg hnot

section Operator

/-- The outer matrix takes the half phases off the columns of the rotated operator. -/
lemma toMatrix_outerMatrix : (outerMatrix u p).toMatrix =
    (inMagicBasis u).toMatrix * p.toReal.map (algebraMap ℝ ℂ) *
      diagonal fun i => (exp (halfPhases (congruence p (gram u)) i * I))⁻¹ := by
  rw [outerMatrix, Dense.toMatrix_dot, Dense.toMatrix_dot, Dense.toMatrix_complexify, Dense.toMatrix_ofDiagonal]
  congr 2
  funext i
  rw [Amplitude.toComplex_phase, ← Complex.exp_neg]
  push_cast
  ring_nf

/-- The half phases are those of the square roots of the diagonal that the basis leaves. -/
lemma congruence_eq_diagonal (hu : u.toMatrix ∈ unitaryGroup (Fin 4) ℂ) (hp : p.toReal ∈ specialOrthogonalGroup (Fin 4) ℝ)
    (hdiag : (congruence p (gram u)).toMatrix.IsDiag) :
    (congruence p (gram u)).toMatrix = diagonal fun i =>
      exp (halfPhases (congruence p (gram u)) i * I) * exp (halfPhases (congruence p (gram u)) i * I) := by
  obtain ⟨horthogonal, hdet⟩ := mem_specialOrthogonalGroup_iff.1 hp
  have heq : (congruence p (gram u)).toMatrix = diagonal (congruence p (gram u)).toMatrix.diag :=
    hdiag.diagonal_diag.symm
  have hunitary := congruence_gram_mem_unitary hu horthogonal
  have hnorm (i : Fin 4) : ‖(congruence p (gram u)).toMatrix i i‖ = 1 := by
    rw [heq, mem_unitaryGroup_iff', star_eq_conjTranspose, diagonal_conjTranspose, diagonal_mul_diagonal] at hunitary
    have hentry := congrFun (congrFun hunitary i) i
    rw [diagonal_apply_eq, one_apply_eq, Pi.star_apply, Complex.star_def, Complex.conj_mul', diag_apply] at hentry
    exact (pow_eq_one_iff_of_nonneg (norm_nonneg _) two_ne_zero).1 (by exact_mod_cast hentry)
  have hprod : ∏ i, (congruence p (gram u)).toMatrix i i = 1 := by
    rw [← det_congruence_gram hu hdet, heq, det_diagonal]
    simp only [diagonal_apply_eq]
  rw [heq]
  congr 1
  funext i
  rw [exp_halfPhases_mul_self hnorm hprod]
  rfl

/-- The matrix of the outer factors is real, orthogonal and of determinant one. -/
lemma outerMatrix_mem (hu : u.toMatrix ∈ unitaryGroup (Fin 4) ℂ) (hp : p.toReal ∈ specialOrthogonalGroup (Fin 4) ℝ)
    (hdiag : (congruence p (gram u)).toMatrix.IsDiag) :
    (outerMatrix u p).toMatrix.map Complex.re ∈ specialOrthogonalGroup (Fin 4) ℝ ∧
      ((outerMatrix u p).toMatrix.map Complex.re).map (algebraMap ℝ ℂ) = (outerMatrix u p).toMatrix := by
  let e (i : Fin 4) : ℂ := exp (halfPhases (congruence p (gram u)) i * I)
  obtain ⟨hP, hdetP⟩ := mem_specialOrthogonalGroup_iff.1 hp
  have hroots : (diagonal fun i => (e i)⁻¹) ∈ unitaryGroup (Fin 4) ℂ := by
    rw [mem_unitaryGroup_iff', star_eq_conjTranspose, diagonal_conjTranspose, diagonal_mul_diagonal, ← diagonal_one]
    congr 1
    funext i
    rw [Pi.star_apply, Complex.star_def, Complex.conj_mul', norm_inv, Complex.norm_exp_ofReal_mul_I]
    norm_num
  have hunitary : (outerMatrix u p).toMatrix ∈ unitaryGroup (Fin 4) ℂ := by
    rw [toMatrix_outerMatrix]
    exact mul_mem (mul_mem (inMagicBasis_mem_unitary hu) (map_mem_unitaryGroup hP)) hroots
  have horthogonal : (outerMatrix u p).toMatrixᵀ * (outerMatrix u p).toMatrix = 1 := by
    rw [toMatrix_outerMatrix]
    refine transpose_mul_divided ?_ fun i => Complex.exp_ne_zero _
    rw [← congruence_eq_diagonal hu hp hdiag, toMatrix_congruence_gram]
  have hdet : (outerMatrix u p).toMatrix.det = 1 := by
    rw [toMatrix_outerMatrix, det_mul, det_mul, det_inMagicBasis hu, det_map hdetP, det_diagonal, Finset.prod_inv_distrib,
      prod_exp_halfPhases]
    norm_num
  exact ⟨map_re_mem hunitary horthogonal hdet, map_re_map_eq hunitary horthogonal⟩

/-- With half phases for its coefficients an interaction is the diagonal of the square roots. -/
lemma interaction_halfPhases (d : Dense (Amplitude ℝ) 4 4) :
    interaction ((halfPhases d 0 + halfPhases d 2) / Scalar.two) ((halfPhases d 1 + halfPhases d 2) / Scalar.two)
      ((halfPhases d 0 + halfPhases d 1) / Scalar.two) = fromMagic (diagonal fun i => exp (halfPhases d i * I)) := by
  have hsum := sum_halfPhases d
  rw [Fin.sum_univ_four] at hsum
  have hangle (i : Fin 4) : interactionAngle ((halfPhases d 0 + halfPhases d 2) / Scalar.two)
      ((halfPhases d 1 + halfPhases d 2) / Scalar.two) ((halfPhases d 0 + halfPhases d 1) / Scalar.two) i =
        halfPhases d i := by
    rw [interactionAngle, Scalar.two_real]
    fin_cases i <;> simp [signsX, signsY, signsZ] <;> linarith
  rw [interaction]
  simp only [hangle]

/-- The outer factors, the square roots and the inner factors make up the operator. -/
lemma fromMagic_factors (hp : p.toReal ∈ orthogonalGroup (Fin 4) ℝ) :
    fromMagic (outerMatrix u p).toMatrix *
        fromMagic (diagonal fun i => exp (halfPhases (congruence p (gram u)) i * I)) *
      fromMagic (p.toRealᵀ.map (algebraMap ℝ ℂ)) = (special u).toMatrix := by
  let e (i : Fin 4) : ℂ := exp (halfPhases (congruence p (gram u)) i * I)
  have hcancel : (diagonal fun i => (e i)⁻¹) * diagonal e = 1 := by
    rw [diagonal_mul_diagonal, ← diagonal_one]
    congr 1
    funext i
    exact inv_mul_cancel₀ (Complex.exp_ne_zero _)
  have hbasis : p.toReal.map (algebraMap ℝ ℂ) * p.toRealᵀ.map (algebraMap ℝ ℂ) = 1 := by
    rw [← Matrix.map_mul, (mem_orthogonalGroup_iff _ _).1 hp, Matrix.map_one _ (map_zero _) (map_one _)]
  rw [fromMagic_mul, fromMagic_mul, ← fromMagic_inMagicBasis, toMatrix_outerMatrix]
  congr 1
  calc (inMagicBasis u).toMatrix * p.toReal.map (algebraMap ℝ ℂ) * (diagonal fun i => (e i)⁻¹) * diagonal e *
        p.toRealᵀ.map (algebraMap ℝ ℂ)
      = (inMagicBasis u).toMatrix * p.toReal.map (algebraMap ℝ ℂ) * ((diagonal fun i => (e i)⁻¹) * diagonal e) *
          p.toRealᵀ.map (algebraMap ℝ ℂ) := by noncomm_ring
    _ = (inMagicBasis u).toMatrix := by rw [hcancel, Matrix.mul_one, Matrix.mul_assoc, hbasis, Matrix.mul_one]

/-- Where the routines of the kernel are exact and the basis that is found makes the symmetric matrix exactly diagonal, a
unitary operator is decomposed: no step fails, the decomposition stands for the operator, no exchange of the wires is left
and at most an eighth of a turn of every coefficient. A kernel that is right for every symmetric matrix meets the first
assumption by `SpectralKernel.IsExactOn.of_symmetric`. -/
theorem ofUnitary_matrix (hkernel : kernel.IsExactOn u) (hu : u.toMatrix ∈ unitaryGroup (Fin 4) ℂ)
    (hp : diagonalize kernel (kernel.draws seed) attempts (gram u) = .ok p)
    (hdiag : (congruence p (gram u)).toMatrix.IsDiag) :
    ∃ d, ofUnitary kernel seed attempts u = .ok d ∧ d.matrix = u ∧ d.outer.swapped = false ∧ d.inner.swapped = false ∧
      |d.a| ≤ Real.pi / 4 ∧ |d.b| ≤ Real.pi / 4 ∧ |d.c| ≤ Real.pi / 4 := by
  obtain ⟨factors, hfactors, hexact⟩ := hkernel.singular
  have hbasis : p.toReal ∈ specialOrthogonalGroup (Fin 4) ℝ :=
    diagonalize_mem (fun a b => (hkernel.eigenvectors a b).orthonormal) hp
  obtain ⟨hP, hdetP⟩ := mem_specialOrthogonalGroup_iff.1 hbasis
  obtain ⟨houterMem, houterReal⟩ := outerMatrix_mem hu hbasis hdiag
  have hreal : ((outerMatrix u p).map (·.re)).toReal = (outerMatrix u p).toMatrix.map Complex.re := by
    ext i j
    rw [Dense.map, Dense.toReal_ofFn]
    rfl
  obtain ⟨outer, houter, houterFactors⟩ := LocalFactors.ofOrthogonal_gives (q := (outerMatrix u p).map (·.re))
    (by rw [hreal]; exact (mem_specialOrthogonalGroup_iff.1 houterMem).1)
    (by rw [hreal]; exact (mem_specialOrthogonalGroup_iff.1 houterMem).2)
  obtain ⟨inner, hinner, hinnerFactors⟩ := LocalFactors.ofOrthogonal_gives (q := p.transpose)
    (by rw [Dense.toReal_transpose]; exact transpose_mem_unitaryGroup_iff.2 hP)
    (by rw [Dense.toReal_transpose, det_transpose, hdetP])
  rw [hreal, houterReal] at houterFactors
  rw [Dense.toReal_transpose] at hinnerFactors
  have hsize : ¬u.det4.norm < 1e-12 := by
    rw [Amplitude.norm_eq, Dense.toComplex_det4, norm_det4 hu]
    norm_num
  refine ⟨_, ofUnitary_eq_ok hsize (closestUnitary_eq hfactors hexact hu) hp houter hinner ?_, ?_, houterFactors.swapped,
    hinnerFactors.swapped, abs_withoutTurns_le _, abs_withoutTurns_le _, abs_withoutTurns_le _⟩
  · rw [houterFactors.swapped, hinnerFactors.swapped]
    decide
  · apply Dense.toMatrix_injective
    rw [toMatrix_assemble houterFactors hinnerFactors, interaction_halfPhases, fromMagic_factors hP, smul_special]

section Example

/-- The exchange of the wires that also multiplies the exchanged states by `i`. -/
noncomputable def phasedExchange : Dense (Amplitude ℝ) 4 4 := .ofMatrix (fromMagic (diagonal ![1, 1, I, -I]))

/-- The exchange with phases, by its eigenvalues in the magic basis. -/
lemma toMatrix_phasedExchange : phasedExchange.toMatrix = fromMagic (diagonal ![1, 1, I, -I]) :=
  Dense.toMatrix_ofMatrix _

/-- The exchange with phases is unitary. -/
lemma phasedExchange_mem_unitary : phasedExchange.toMatrix ∈ unitaryGroup (Fin 4) ℂ := by
  have hdiag : diagonal ![1, 1, I, -I] ∈ unitaryGroup (Fin 4) ℂ := by
    rw [mem_unitaryGroup_iff', star_eq_conjTranspose, diagonal_conjTranspose, diagonal_mul_diagonal, ← diagonal_one]
    congr 1
    funext i
    fin_cases i <;> simp
  rw [toMatrix_phasedExchange]
  exact mul_mem (mul_mem magic_mem_unitary hdiag) (Unitary.star_mem magic_mem_unitary)

/-- What is diagonal in the magic basis has a diagonal symmetric matrix. -/
lemma isDiag_gram {d : Fin 4 → ℂ} (hu : u.toMatrix = fromMagic (diagonal d)) : (gram u).toMatrix.IsDiag := by
  have hmagic : (inMagicBasis u).toMatrix = diagonal (exp ((-quarterPhase u : ℝ) * I) • d) := by
    rw [toMatrix_inMagicBasis, toMatrix_special, hu, ← fromMagic_smul, ← diagonal_smul, fromMagic]
    calc magicᴴ * (magic * diagonal (exp ((-quarterPhase u : ℝ) * I) • d) * magicᴴ) * magic
        = (magicᴴ * magic) * diagonal (exp ((-quarterPhase u : ℝ) * I) • d) * (magicᴴ * magic) := by noncomm_ring
      _ = diagonal (exp ((-quarterPhase u : ℝ) * I) • d) := by
          rw [magic_conjTranspose_mul, Matrix.one_mul, Matrix.mul_one]
  rw [gram, Dense.toMatrix_dot, Dense.toMatrix_transpose, hmagic, diagonal_transpose, diagonal_mul_diagonal]
  exact isDiag_diagonal _

/-- The standard kernel is exact on a unitary operator that is diagonal in the magic basis. -/
lemma isExactOn_standard (hu : u.toMatrix ∈ unitaryGroup (Fin 4) ℂ) (hdiag : (gram u).toMatrix.IsDiag) :
    SpectralKernel.standard.IsExactOn u where
  singular := ⟨Jacobi.singular u, rfl, Jacobi.isExact_singular hu⟩
  eigenvectors := isEigenbasis_standard hdiag

end Example

/-- A phased exchange of the wires, with the standard kernel. -/
theorem ofUnitary_matrix_phasedExchange : ∃ d, ofUnitary .standard 42 16 phasedExchange = .ok d ∧
    d.matrix = phasedExchange ∧ d.outer.swapped = false ∧ d.inner.swapped = false ∧
      |d.a| ≤ Real.pi / 4 ∧ |d.b| ≤ Real.pi / 4 ∧ |d.c| ≤ Real.pi / 4 := by
  have hgram := isDiag_gram toMatrix_phasedExchange
  obtain ⟨p, hp, hdiag⟩ := exists_diagonalize_standard hgram (SpectralKernel.standard.draws 42) 15
  exact ofUnitary_matrix (isExactOn_standard phasedExchange_mem_unitary hgram) phasedExchange_mem_unitary hp hdiag

end Operator

end Decomposition

end CircuitSynthesis.TwoQubit
