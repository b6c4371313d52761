import Mathlib
import CircuitSynthesis.TwoQubit.Decomposition
import CircuitSynthesis.Proofs.Exact.Matrix2

/-!
# The basis of eigenvectors

Where the singular values of a unitary matrix are found exactly they are one, so that the nearest unitary matrix is the
matrix itself. Where eigenvectors are orthonormal, `diagonalize` returns a rotation: the columns of an orthogonal matrix
are permuted, and the last one is negated where this makes the determinant positive.
-/

namespace CircuitSynthesis.TwoQubit

open Matrix

/-- Whether factors are exactly a singular value decomposition of a matrix. -/
structure SingularFactors.IsExact (f : SingularFactors ℝ) (u : Dense (Amplitude ℝ) 4 4) : Prop where
  left : f.left.toMatrix ∈ unitaryGroup (Fin 4) ℂ
  right : f.rightAdjoint.toMatrix ∈ unitaryGroup (Fin 4) ℂ
  nonneg : ∀ i, 0 ≤ f.values.get i
  product : f.left.toMatrix * diagonal (fun i => (f.values.get i : ℂ)) * f.rightAdjoint.toMatrix = u.toMatrix

/-- Whether the columns of a matrix are an orthonormal basis of eigenvectors of another. -/
structure IsEigenbasis (p s : Dense ℝ 4 4) : Prop where
  orthonormal : p.toReal ∈ orthogonalGroup (Fin 4) ℝ
  eigenvectors : ∃ values : Fin 4 → ℝ, s.toReal * p.toReal = p.toReal * diagonal values

/-- The combination of the real and the imaginary part of `m` whose eigenvectors are tried. -/
def mixing (m : Dense (Amplitude ℝ) 4 4) (a b : ℝ) : Dense ℝ 4 4 :=
  .ofFn fun i j => (m.get i j).re * a + (m.get i j).im * b

section Mixing

variable {m : Dense (Amplitude ℝ) 4 4}

/-- A mixing combines the real and the imaginary part. -/
lemma toReal_mixing (m : Dense (Amplitude ℝ) 4 4) (a b : ℝ) :
    (mixing m a b).toReal = a • m.toMatrix.map Complex.re + b • m.toMatrix.map Complex.im := by
  ext i j
  rw [mixing, Dense.toReal_ofFn, Matrix.of_apply, mul_comm _ a, mul_comm _ b]
  rfl

/-- The mixings of a symmetric matrix are symmetric. -/
lemma isSymm_mixing (hsymm : m.toMatrix.IsSymm) (a b : ℝ) : (mixing m a b).toReal.IsSymm := by
  rw [toReal_mixing]
  exact ((hsymm.map _).smul a).add ((hsymm.map _).smul b)

/-- The product `VᵀV` is symmetric. -/
lemma isSymm_transpose_dot (v : Dense (Amplitude ℝ) 4 4) : (v.transpose.dot v).toMatrix.IsSymm := by
  rw [Dense.toMatrix_dot, Dense.toMatrix_transpose]
  exact isSymm_transpose_mul_self _

/-- A routine that finds a basis of eigenvectors of every symmetric matrix finds one of every mixing of a product `VᵀV`. -/
lemma isEigenbasis_mixing {kernel : SpectralKernel ℝ}
    (heigen : ∀ s : Dense ℝ 4 4, s.toReal.IsSymm → IsEigenbasis (kernel.eigenvectors s) s) (v : Dense (Amplitude ℝ) 4 4) (a b : ℝ) :
    IsEigenbasis (kernel.eigenvectors (mixing (v.transpose.dot v) a b)) (mixing (v.transpose.dot v) a b) :=
  heigen _ (isSymm_mixing (isSymm_transpose_dot v) a b)

end Mixing

/-- The congruence is a product with a real matrix on either side. -/
lemma toMatrix_congruence (p : Dense ℝ 4 4) (m : Dense (Amplitude ℝ) 4 4) : (congruence p m).toMatrix =
    (p.toReal.map (algebraMap ℝ ℂ))ᵀ * m.toMatrix * p.toReal.map (algebraMap ℝ ℂ) := by
  rw [congruence, Dense.toMatrix_dot, Dense.toMatrix_dot, Dense.toMatrix_transpose, Dense.toMatrix_complexify]

section Projection

variable {kernel : SpectralKernel ℝ} {f : SingularFactors ℝ} {u : Dense (Amplitude ℝ) 4 4}

/-- The singular values of a unitary matrix are one. -/
lemma SingularFactors.IsExact.values_eq_one (hf : f.IsExact u) (hu : u.toMatrix ∈ unitaryGroup (Fin 4) ℂ) (i : Fin 4) :
    f.values.get i = 1 := by
  have hvalues : diagonal (fun i => (f.values.get i : ℂ)) = star f.left.toMatrix * u.toMatrix * star f.rightAdjoint.toMatrix := by
    rw [← hf.product, Matrix.mul_assoc, Matrix.mul_assoc, mem_unitaryGroup_iff.1 hf.right, Matrix.mul_one, ← Matrix.mul_assoc,
      mem_unitaryGroup_iff'.1 hf.left, Matrix.one_mul]
  have hunitary : diagonal (fun i => (f.values.get i : ℂ)) ∈ unitaryGroup (Fin 4) ℂ := by
    rw [hvalues]
    exact mul_mem (mul_mem (Unitary.star_mem hf.left) hu) (Unitary.star_mem hf.right)
  have hentry := congrFun (congrFun (mem_unitaryGroup_iff'.1 hunitary) i) i
  rw [star_eq_conjTranspose, diagonal_conjTranspose, diagonal_mul_diagonal, diagonal_apply_eq, one_apply_eq, Pi.star_apply,
    Complex.star_def, Complex.conj_ofReal, ← Complex.ofReal_mul, ← Complex.ofReal_one, Complex.ofReal_inj] at hentry
  have := hf.nonneg i
  nlinarith

/-- The unitary matrix nearest to a unitary matrix is the matrix itself. -/
lemma closestUnitary_eq (hf : kernel.singular u = some f) (hexact : f.IsExact u)
    (hu : u.toMatrix ∈ unitaryGroup (Fin 4) ℂ) : closestUnitary kernel u = .ok u := by
  have hproduct : f.left.dot f.rightAdjoint = u := by
    apply Dense.toMatrix_injective
    have hone : diagonal (fun i => (f.values.get i : ℂ)) = 1 := by
      simp only [hexact.values_eq_one hu, Complex.ofReal_one, diagonal_one]
    rw [Dense.toMatrix_dot, ← hexact.product, hone, Matrix.mul_one]
  rw [closestUnitary, hf]
  exact congrArg Except.ok hproduct

end Projection

section Orientation

variable {q : Dense ℝ 4 4}

/-- An orthogonal matrix has determinant one or minus one. -/
lemma det_of_mem_orthogonalGroup {n : ℕ} {Q : Matrix (Fin n) (Fin n) ℝ} (hQ : Q ∈ orthogonalGroup (Fin n) ℝ) :
    Q.det = 1 ∨ Q.det = -1 := by
  have hsquare := congrArg det ((mem_orthogonalGroup_iff _ _).1 hQ)
  rw [det_mul, det_transpose, det_one] at hsquare
  exact mul_self_eq_one_iff.1 hsquare

/-- A permutation of its columns keeps a matrix orthogonal. -/
lemma submatrix_mem_orthogonalGroup {n : ℕ} {Q : Matrix (Fin n) (Fin n) ℝ} (hQ : Q ∈ orthogonalGroup (Fin n) ℝ)
    {σ : Fin n → Fin n} (hσ : Function.Injective σ) : Q.submatrix id σ ∈ orthogonalGroup (Fin n) ℝ := by
  have hone := (mem_orthogonalGroup_iff' _ _).1 hQ
  rw [mem_orthogonalGroup_iff', transpose_submatrix, ← submatrix_mul _ _ _ _ _ Function.bijective_id, hone,
    submatrix_one _ hσ]

/-- The mirror that negates the last coordinate is its own inverse. -/
lemma negation_mul_self {A : Type} [CommRing A] :
    (diagonal ![1, 1, 1, -1] : Matrix (Fin 4) (Fin 4) A) * diagonal ![1, 1, 1, -1] = 1 := by
  rw [diagonal_mul_diagonal, ← diagonal_one]
  congr 1
  ext i
  fin_cases i <;> simp

/-- Negating the last state is orthogonal. -/
lemma negation_mem : (diagonal ![1, 1, 1, -1] : Matrix (Fin 4) (Fin 4) ℝ) ∈ orthogonalGroup (Fin 4) ℝ := by
  rw [mem_orthogonalGroup_iff, diagonal_transpose, negation_mul_self]

/-- Negating the last column is multiplying by a mirror. -/
lemma toReal_negateLast (q : Dense ℝ 4 4) :
    (LocalFactors.negateLast q).toReal = q.toReal * diagonal ![1, 1, 1, -1] := by
  ext i j
  rw [mul_diagonal, LocalFactors.negateLast, Dense.toReal_ofFn, Matrix.of_apply]
  fin_cases j <;> simp [Dense.toReal]

/-- The matrix, its last column negated where its determinant is negative. -/
noncomputable def rotationOf (q : Dense ℝ 4 4) : Dense ℝ 4 4 := if q.det4 < 0 then LocalFactors.negateLast q else q

/-- Negating a column where the determinant is negative leaves a rotation. -/
lemma rotationOf_mem (hq : q.toReal ∈ orthogonalGroup (Fin 4) ℝ) :
    (rotationOf q).toReal ∈ specialOrthogonalGroup (Fin 4) ℝ := by
  rw [rotationOf, Dense.det4_real, mem_specialOrthogonalGroup_iff]
  rcases det_of_mem_orthogonalGroup hq with hdet | hdet
  · rw [hdet, if_neg (by norm_num)]
    exact ⟨hq, hdet⟩
  · rw [hdet, if_pos (by norm_num), toReal_negateLast, det_mul, hdet, det_diagonal, Fin.prod_univ_four]
    exact ⟨mul_mem hq negation_mem, by simp⟩

/-- An order of the columns takes each of them once. -/
lemma injective_getD {order : List (Fin 4)} (h : order.Perm (List.finRange 4)) :
    Function.Injective fun c : Fin 4 => order.getD c c := by
  have hlength : order.length = 4 := by rw [h.length_eq, List.length_finRange]
  have hnodup : order.Nodup := h.nodup_iff.2 (List.nodup_finRange 4)
  intro c d hcd
  have hc : c.val < order.length := by omega
  have hd : d.val < order.length := by omega
  dsimp only at hcd
  rw [List.getD_eq_getElem _ _ hc, List.getD_eq_getElem _ _ hd, hnodup.getElem_inj_iff] at hcd
  exact Fin.ext hcd

/-- Columns in a new order, oriented to determinant one. -/
lemma orient_mem (hq : q.toReal ∈ orthogonalGroup (Fin 4) ℝ) {order : List (Fin 4)} (h : order.Perm (List.finRange 4)) :
    (orient q order).toReal ∈ specialOrthogonalGroup (Fin 4) ℝ := by
  refine rotationOf_mem (q := .ofFn fun r c => q.get r (order.getD c c)) ?_
  rw [Dense.toReal_ofFn]
  exact submatrix_mem_orthogonalGroup hq (injective_getD h)

/-- Columns in a new order, one of them negated or none. -/
lemma exists_signs_orient (q : Dense ℝ 4 4) (order : List (Fin 4)) : ∃ signs : Fin 4 → ℝ,
    (∀ i, signs i = 1 ∨ signs i = -1) ∧
      (orient q order).toReal = q.toReal.submatrix id (fun c : Fin 4 => order.getD c c) * diagonal signs := by
  let sorted : Dense ℝ 4 4 := .ofFn fun r c => q.get r (order.getD c c)
  have hsorted : sorted.toReal = q.toReal.submatrix id fun c : Fin 4 => order.getD c c := Dense.toReal_ofFn _
  change ∃ signs : Fin 4 → ℝ, _ ∧ (rotationOf sorted).toReal = _
  rw [← hsorted, rotationOf]
  split
  · exact ⟨![1, 1, 1, -1], fun i => by fin_cases i <;> simp, toReal_negateLast sorted⟩
  · exact ⟨fun _ => 1, fun _ => .inl rfl, by rw [diagonal_one, Matrix.mul_one]⟩

/-- The order of the columns reorders the rows and the columns of a congruence, up to signs. -/
lemma exists_signs_congruence_orient (q : Dense ℝ 4 4) (order : List (Fin 4)) (m : Dense (Amplitude ℝ) 4 4) :
    ∃ signs : Fin 4 → ℝ, (∀ i, signs i = 1 ∨ signs i = -1) ∧ ∀ i j, (congruence (orient q order) m).toMatrix i j =
      signs i * (congruence q m).toMatrix (order.getD i i) (order.getD j j) * signs j := by
  obtain ⟨signs, hsigns, horient⟩ := exists_signs_orient q order
  refine ⟨signs, hsigns, fun i j => ?_⟩
  let Q := q.toReal.map (algebraMap ℝ ℂ)
  let σ (c : Fin 4) : Fin 4 := order.getD c c
  have hbasis : (orient q order).toReal.map (algebraMap ℝ ℂ) = Q.submatrix id σ * diagonal fun i => (signs i : ℂ) := by
    rw [horient, Matrix.map_mul, diagonal_map (map_zero _)]
    rfl
  have hreordered : (Q.submatrix id σ)ᵀ * m.toMatrix * Q.submatrix id σ = (Qᵀ * m.toMatrix * Q).submatrix σ σ := rfl
  rw [toMatrix_congruence, toMatrix_congruence, hbasis, transpose_mul, diagonal_transpose, Matrix.mul_assoc, Matrix.mul_assoc,
    diagonal_mul, ← Matrix.mul_assoc, ← Matrix.mul_assoc, mul_diagonal, hreordered]
  exact (mul_assoc _ _ _).symm

/-- Reordering columns and negating one does not change the moduli of a congruence. -/
lemma norm_congruence_orient (q : Dense ℝ 4 4) (order : List (Fin 4)) (m : Dense (Amplitude ℝ) 4 4) (i j : Fin 4) :
    ‖(congruence (orient q order) m).toMatrix i j‖ = ‖(congruence q m).toMatrix (order.getD i i) (order.getD j j)‖ := by
  obtain ⟨signs, hsigns, hentry⟩ := exists_signs_congruence_orient q order m
  have hnorm (i : Fin 4) : ‖(signs i : ℂ)‖ = 1 := by
    rcases hsigns i with h | h <;> rw [h] <;> simp
  rw [hentry, norm_mul, norm_mul, hnorm, hnorm, one_mul, mul_one]

/-- Reordering columns and negating one reorders the diagonal of a congruence. -/
lemma congruence_orient_diagonal (q : Dense ℝ 4 4) (order : List (Fin 4)) (m : Dense (Amplitude ℝ) 4 4) (i : Fin 4) :
    (congruence (orient q order) m).toMatrix i i = (congruence q m).toMatrix (order.getD i i) (order.getD i i) := by
  obtain ⟨signs, hsigns, hentry⟩ := exists_signs_congruence_orient q order m
  rw [hentry]
  rcases hsigns i with h | h <;> rw [h] <;> push_cast <;> ring

end Orientation

section Diagonalize

variable {kernel : SpectralKernel ℝ} {draws : ℕ → ℝ} {m : Dense (Amplitude ℝ) 4 4} {p : Dense ℝ 4 4}

/-- A basis of eigenvectors is accepted if and only if it diagonalizes the matrix up to the tolerance. -/
lemma basisOfMixing?_eq_some_iff {a b : ℝ} : basisOfMixing? kernel m a b = some p ↔
    ¬eigenTolerance < (congruence (kernel.eigenvectors (mixing m a b)) m).maxOffDiagonal ∧
      orient (kernel.eigenvectors (mixing m a b)) (angleOrder (congruence (kernel.eigenvectors (mixing m a b)) m)) = p := by
  have hguard {off : ℝ} : (!Scalar.isFinite off || decide (eigenTolerance < off)) = true ↔ eigenTolerance < off := by
    simp
  unfold basisOfMixing?
  dsimp only
  rw [← mixing]
  split
  case isTrue h => exact iff_of_false nofun fun h' => h'.1 (hguard.1 h)
  case isFalse h => rw [Option.some_inj, and_iff_right (mt hguard.2 h)]

/-- A basis that is found comes from one of the draws. -/
lemma exists_of_findBasis?_eq_some {attempts next : ℕ} (hp : findBasis? kernel draws m attempts next = some p) :
    ∃ a b, basisOfMixing? kernel m a b = some p := by
  induction attempts generalizing next with
  | zero => exact absurd hp (by simp [findBasis?])
  | succ attempts ih =>
    rw [findBasis?] at hp
    split at hp
    · next found => exact ⟨_, _, found.trans hp⟩
    · exact ih hp

/-- No basis is found if and only if every draw is refused. -/
lemma findBasis?_eq_none_iff {attempts next : ℕ} : findBasis? kernel draws m attempts next = none ↔
    ∀ k < attempts, basisOfMixing? kernel m (draws (next + 2 * k)) (draws (next + 2 * k + 1)) = none := by
  induction attempts generalizing next with
  | zero => exact iff_of_true rfl nofun
  | succ attempts ih =>
    rw [Nat.forall_lt_succ_left, findBasis?]
    split
    case h_1 found => exact iff_of_false nofun fun h => nomatch found.symm.trans h.1
    case h_2 refused =>
      have hshift (k : ℕ) : next + 2 * (k + 1) = next + 2 + 2 * k := by omega
      simp only [ih, mul_zero, add_zero, refused, true_and, hshift]

/-- Diagonalizing succeeds exactly with the basis that the search finds. -/
lemma diagonalize_eq_ok_iff {attempts : ℕ} :
    diagonalize kernel draws attempts m = .ok p ↔ findBasis? kernel draws m attempts 0 = some p := by
  unfold diagonalize
  split
  case h_1 found => rw [found, Except.ok.injEq, Option.some_inj]
  case h_2 refused => exact iff_of_false nofun fun h => nomatch refused.symm.trans h

/-- The basis that `diagonalize` returns is a rotation. -/
theorem diagonalize_mem (heigen : ∀ a b, (kernel.eigenvectors (mixing m a b)).toReal ∈ orthogonalGroup (Fin 4) ℝ)
    {attempts : ℕ} (hp : diagonalize kernel draws attempts m = .ok p) : p.toReal ∈ specialOrthogonalGroup (Fin 4) ℝ := by
  obtain ⟨a, b, hbasis⟩ := exists_of_findBasis?_eq_some (diagonalize_eq_ok_iff.1 hp)
  obtain ⟨-, rfl⟩ := basisOfMixing?_eq_some_iff.1 hbasis
  exact orient_mem (heigen a b) (List.mergeSort_perm _ _)

end Diagonalize

end CircuitSynthesis.TwoQubit
