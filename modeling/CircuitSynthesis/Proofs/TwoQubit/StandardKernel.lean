import Mathlib
import CircuitSynthesis.TwoQubit.StandardKernel
import CircuitSynthesis.Proofs.TwoQubit.Eigenbasis

/-!
# Where the standard kernel has nothing to rotate

A Jacobi sweep skips every plane whose entry is already clear. Hence the eigenvectors that it finds for a diagonal matrix
are the basis vectors, and the singular value decomposition that it finds for a unitary matrix is exact: the columns are
orthogonal from the start and have length one.
-/

namespace CircuitSynthesis.TwoQubit.Jacobi

open Matrix

/-- A fold whose every step keeps a state ends in it. -/
lemma foldl_eq_self {α β : Type} {f : α → β → α} {a : α} {l : List β} (h : ∀ b ∈ l, f a b = a) : l.foldl f a = a := by
  induction l with
  | nil => rfl
  | cons b l ih =>
    rw [List.forall_mem_cons] at h
    rw [List.foldl_cons, h.1, ih h.2]

/-- A fold that puts every element in front collects the list in reverse order. -/
lemma foldl_fst_eq_reverse {α β : Type} {f : List α × β → α → List α × β} {l : List α}
    (h : ∀ a ∈ l, ∀ s, f s a = (a :: s.1, s.2)) (s : List α × β) : (l.foldl f s).1 = l.reverse ++ s.1 := by
  induction l generalizing s with
  | nil => rfl
  | cons a l ih =>
    rw [List.forall_mem_cons] at h
    rw [List.foldl_cons, h.1, ih h.2, List.reverse_cons, List.append_assoc, List.singleton_append]

/-- Every plane of the schedule is spanned by two columns. -/
lemma ne_of_mem_schedule {plane : Fin 4 × Fin 4} (h : plane ∈ schedule) : plane.1 ≠ plane.2 := by
  have hsweep : ∀ plane ∈ columnPairs, plane.1 ≠ plane.2 := by decide
  obtain ⟨sweep, hmem, hplane⟩ := List.mem_flatten.1 h
  rw [List.eq_of_mem_replicate hmem] at hplane
  exact hsweep plane hplane

section Symmetric

variable {a : Dense ℝ 4 4}

/-- The eigenvectors of a diagonal matrix are the basis vectors. -/
lemma eigenvectors_of_isDiag (ha : a.toReal.IsDiag) : eigenvectors a = .identity := by
  refine congrArg Prod.snd (foldl_eq_self fun plane hplane => ?_)
  have hoff : a.get plane.1 plane.2 = 0 := ha (ne_of_mem_schedule hplane)
  simp [rotateSymmetric, hoff]

end Symmetric

section Singular

variable {u : Dense (Amplitude ℝ) 4 4}

/-- The inner products of the columns are the entries of the Gram matrix. -/
lemma toComplex_inner_column (u : Dense (Amplitude ℝ) 4 4) (p q : Fin 4) :
    (inner (column u p) (column u q)).toComplex = (u.toMatrixᴴ * u.toMatrix) p q := by
  rw [inner, Amplitude.toComplex_sumFin, Matrix.mul_apply]
  refine Finset.sum_congr rfl fun i _ => ?_
  rw [Amplitude.toComplex_mul, Amplitude.toComplex_conj, conjTranspose_apply, column, Vector.get_ofFn, column, Vector.get_ofFn]
  rfl

/-- Columns that are orthogonal already are not rotated. -/
lemma rotateColumns_of_unitary (hu : u.toMatrix ∈ unitaryGroup (Fin 4) ℂ) (v : Dense (Amplitude ℝ) 4 4)
    {plane : Fin 4 × Fin 4} (hplane : plane.1 ≠ plane.2) : rotateColumns (u, v) plane = (u, v) := by
  have hoverlap : (inner (column u plane.1) (column u plane.2)).norm = 0 := by
    rw [Amplitude.norm_eq, toComplex_inner_column, ← star_eq_conjTranspose, mem_unitaryGroup_iff'.1 hu,
      one_apply_ne hplane, norm_zero]
  simp [rotateColumns, hoverlap]

/-- The columns of a unitary matrix have length one. -/
lemma length_column (hu : u.toMatrix ∈ unitaryGroup (Fin 4) ℂ) (j : Fin 4) : length (column u j) = 1 := by
  have hone := congrFun (congrFun (mem_unitaryGroup_iff'.1 hu) j) j
  rw [star_eq_conjTranspose, Matrix.mul_apply, one_apply_eq] at hone
  have hsum : ∑ i, ((column u j).get i).normSq = 1 := by
    rw [← Complex.ofReal_inj, Complex.ofReal_sum, Complex.ofReal_one, ← hone]
    refine Finset.sum_congr rfl fun i _ => ?_
    rw [column, Vector.get_ofFn, Amplitude.normSq_eq, Complex.normSq_eq_conj_mul_self]
    rfl
  rw [length, Scalar.sumFin_real, hsum, Scalar.sqrt_real, Real.sqrt_one]

/-- Columns of length one are kept. -/
lemma normalizeColumns_of_length {columns : List (Vector (Amplitude ℝ) 4)} (h : ∀ c ∈ columns, length c = 1) :
    normalizeColumns columns = columns := by
  have hunit (c : Vector (Amplitude ℝ) 4) : c.map (·.divReal 1) = c := by
    have hone (z : Amplitude ℝ) : z.divReal 1 = z := by
      apply Amplitude.toComplex_injective
      rw [Amplitude.toComplex_divReal, Complex.ofReal_one, div_one]
    simp [hone]
  unfold normalizeColumns
  dsimp only
  rw [foldl_fst_eq_reverse, List.append_nil, List.reverse_reverse]
  intro c hc s
  simp [h c hc, hunit c]

/-- The singular value decomposition of a unitary matrix is exact. -/
theorem isExact_singular (hu : u.toMatrix ∈ unitaryGroup (Fin 4) ℂ) : (singular u).IsExact u := by
  have hfold : schedule.foldl rotateColumns (u, .identity) = (u, .identity) :=
    foldl_eq_self fun plane hplane => rotateColumns_of_unitary hu _ (ne_of_mem_schedule hplane)
  have hcolumns : normalizeColumns ((List.finRange 4).map (column u)) = (List.finRange 4).map (column u) := by
    refine normalizeColumns_of_length fun c hc => ?_
    obtain ⟨j, -, rfl⟩ := List.mem_map.1 hc
    exact length_column hu j
  have hsingular : singular u =
      ⟨.ofFn fun i j => (((List.finRange 4).map (column u)).getD j (.replicate 4 0)).get i,
        .ofFn fun j => length (column u j), (Dense.identity : Dense (Amplitude ℝ) 4 4).dagger⟩ := by
    rw [singular, hfold]
    dsimp only
    rw [hcolumns]
  have hleft : (Dense.ofFn fun i j => (((List.finRange 4).map (column u)).getD j (.replicate 4 0)).get i) = u := by
    ext1 i j
    have hj : j.val < ((List.finRange 4).map (column u)).length := by simp
    rw [Dense.get_ofFn, List.getD_eq_getElem _ _ hj, List.getElem_map, List.getElem_finRange, column, Vector.get_ofFn]
    rfl
  have hvalues (j : Fin 4) : (Vector.ofFn fun j => length (column u j)).get j = 1 := by
    rw [Vector.get_ofFn, length_column hu]
  have hright : (Dense.identity : Dense (Amplitude ℝ) 4 4).dagger.toMatrix = 1 := by
    rw [Dense.toMatrix_dagger, Dense.toMatrix_identity, conjTranspose_one]
  rw [hsingular, hleft]
  refine ⟨hu, hright ▸ one_mem _, fun j => (hvalues j).symm ▸ zero_le_one, ?_⟩
  simp only [hright, hvalues, Complex.ofReal_one, diagonal_one, Matrix.mul_one]

end Singular

end CircuitSynthesis.TwoQubit.Jacobi

namespace CircuitSynthesis.TwoQubit

open Matrix

section Diagonal

variable {m : Dense (Amplitude ℝ) 4 4} {order : List (Fin 4)}

/-- The mixings of a diagonal matrix are diagonal. -/
lemma isDiag_mixing (hm : m.toMatrix.IsDiag) (a b : ℝ) : (mixing m a b).toReal.IsDiag := by
  intro i j hij
  have hentry : m.get i j = 0 := Amplitude.toComplex_injective (hm hij)
  rw [mixing, Dense.toReal_ofFn, Matrix.of_apply, hentry]
  change (0 : ℝ) * a + 0 * b = 0
  ring

/-- The basis vectors are eigenvectors of a diagonal matrix. -/
lemma isEigenbasis_identity {s : Dense ℝ 4 4} (hs : s.toReal.IsDiag) : IsEigenbasis .identity s where
  orthonormal := by
    rw [Dense.toReal_identity]
    exact one_mem _
  eigenvectors := by
    refine ⟨s.toReal.diag, ?_⟩
    rw [Dense.toReal_identity, Matrix.mul_one, Matrix.one_mul, hs.diagonal_diag]

/-- The standard kernel finds the eigenvectors of the mixings of a diagonal matrix. -/
lemma isEigenbasis_standard (hm : m.toMatrix.IsDiag) (a b : ℝ) :
    IsEigenbasis (SpectralKernel.standard.eigenvectors (mixing m a b)) (mixing m a b) := by
  have heigen : SpectralKernel.standard.eigenvectors (mixing m a b) = .identity :=
    Jacobi.eigenvectors_of_isDiag (isDiag_mixing hm a b)
  rw [heigen]
  exact isEigenbasis_identity (isDiag_mixing hm a b)

/-- The congruence by the identity changes nothing. -/
lemma congruence_identity (m : Dense (Amplitude ℝ) 4 4) : congruence .identity m = m := by
  apply Dense.toMatrix_injective
  rw [toMatrix_congruence, Dense.toReal_identity, Matrix.map_one _ (map_zero _) (map_one _), transpose_one, Matrix.one_mul,
    Matrix.mul_one]

/-- The basis vectors in a new order keep a matrix diagonal. -/
lemma isDiag_congruence_orient (hm : m.toMatrix.IsDiag) (h : order.Perm (List.finRange 4)) :
    (congruence (orient .identity order) m).toMatrix.IsDiag := by
  intro i j hij
  have hne : order.getD i i ≠ order.getD j j := fun heq => hij (injective_getD h heq)
  rw [← norm_eq_zero, norm_congruence_orient, congruence_identity, hm hne, norm_zero]

/-- The first basis that is tried for a diagonal matrix is accepted, and keeps it diagonal. -/
theorem exists_diagonalize_standard (hm : m.toMatrix.IsDiag) (draws : ℕ → ℝ) (attempts : ℕ) :
    ∃ p, diagonalize .standard draws (attempts + 1) m = .ok p ∧ (congruence p m).toMatrix.IsDiag := by
  have heigen : SpectralKernel.standard.eigenvectors (mixing m (draws 0) (draws 1)) = .identity :=
    Jacobi.eigenvectors_of_isDiag (isDiag_mixing hm _ _)
  have htolerance : ¬(eigenTolerance : ℝ) < 0 := by
    change ¬(1e-9 : ℝ) < 0
    norm_num
  have hbasis : basisOfMixing? .standard m (draws 0) (draws 1) = some (orient .identity (angleOrder m)) := by
    rw [basisOfMixing?_eq_some_iff, heigen, congruence_identity, Dense.maxOffDiagonal_eq_zero hm]
    exact ⟨htolerance, rfl⟩
  refine ⟨orient .identity (angleOrder m), ?_, isDiag_congruence_orient hm (List.mergeSort_perm _ _)⟩
  rw [diagonalize, findBasis?, hbasis]

end Diagonal

end CircuitSynthesis.TwoQubit
