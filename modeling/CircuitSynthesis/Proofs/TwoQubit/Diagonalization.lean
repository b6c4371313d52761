import Mathlib
import CircuitSynthesis.Proofs.TwoQubit.Separation
import CircuitSynthesis.Proofs.TwoQubit.StandardKernel

/-!
# Diagonalizing a symmetric unitary matrix

The basis that `diagonalize` accepts is a rotation that clears the entries off the diagonal up to the tolerance, and the stable
sort of its columns puts the angles of the diagonal in order. A pair of draws that separates the eigenphases gives a basis that
clears these entries exactly, so that the search fails only where every pair of draws confuses two of the eigenphases.
-/

namespace CircuitSynthesis.TwoQubit

open Matrix

/-- Whether a real matrix diagonalizes a complex one up to the tolerance, with the angles of the diagonal in order. -/
structure IsDiagonalizer (p : Dense ℝ 4 4) (m : Dense (Amplitude ℝ) 4 4) : Prop where
  rotation : p.toReal ∈ specialOrthogonalGroup (Fin 4) ℝ
  offDiagonal : ∀ i j, i ≠ j → ‖(congruence p m).toMatrix i j‖ ≤ 1e-9
  sorted : Monotone fun i => ((congruence p m).toMatrix i i).arg

section Order

/-- Zero has one sign only, so that nothing but the values of the angles decides. -/
lemma angleBefore_real (x y : ℝ) : angleBefore x y = decide (x < y) := by
  unfold angleBefore
  by_cases hxy : x = y
  case pos => simp [hxy]
  case neg => simp [hxy]

/-- Along the diagonal the angles ascend in the order that was computed for them. -/
lemma monotone_angleOrder (d : Dense (Amplitude ℝ) 4 4) :
    Monotone fun c : Fin 4 => (d.toMatrix ((angleOrder d).getD c c) ((angleOrder d).getD c c)).arg := by
  -- the sort is by the negation of a strict order, which is a total preorder
  let le (i j : Fin 4) : Bool := !angleBefore (d.get j j).arg (d.get i i).arg
  have hle (i j : Fin 4) : le i j = true ↔ (d.toMatrix i i).arg ≤ (d.toMatrix j j).arg := by
    simp only [le, angleBefore_real, Bool.not_eq_true', decide_eq_false_iff_not, not_lt]
    rfl
  have hlength : (angleOrder d).length = 4 := by
    rw [angleOrder, List.length_mergeSort, List.length_finRange]
  have hpairwise : (angleOrder d).Pairwise fun i j => le i j = true := by
    refine List.pairwise_mergeSort (fun i j k hij hjk => ?_) (fun i j => ?_) _
    · rw [hle] at hij hjk ⊢
      exact hij.trans hjk
    · rw [Bool.or_eq_true, hle, hle]
      exact le_total _ _
  refine monotone_iff_forall_lt.2 fun c e hce => ?_
  rw [List.getD_eq_getElem _ _ (by omega), List.getD_eq_getElem _ _ (by omega), ← hle]
  exact List.pairwise_iff_getElem.1 hpairwise c e _ _ hce

end Order

section Search

variable {kernel : SpectralKernel ℝ} {m : Dense (Amplitude ℝ) 4 4} {p : Dense ℝ 4 4} {a b : ℝ}

/-- A basis that is accepted diagonalizes. -/
lemma isDiagonalizer_of_basisOfMixing? (heigen : IsEigenbasis (kernel.eigenvectors (mixing m a b)) (mixing m a b))
    (hp : basisOfMixing? kernel m a b = some p) : IsDiagonalizer p m := by
  obtain ⟨hoff, rfl⟩ := basisOfMixing?_eq_some_iff.1 hp
  have hperm : (angleOrder (congruence (kernel.eigenvectors (mixing m a b)) m)).Perm (List.finRange 4) := List.mergeSort_perm _ _
  refine ⟨orient_mem heigen.orthonormal hperm, fun i j hij => ?_, ?_⟩
  · have hne := fun h => hij (injective_getD hperm (Fin.ext h))
    rw [norm_congruence_orient]
    exact (Dense.norm_le_maxOffDiagonal _ hne).trans (not_lt.1 hoff)
  · simp only [congruence_orient_diagonal]
    exact monotone_angleOrder _

/-- A pair of draws that separates the eigenphases gives a basis that is accepted. -/
lemma exists_basisOfMixing? (hm : m.toMatrix ∈ unitaryGroup (Fin 4) ℂ) (hsymm : m.toMatrix.IsSymm)
    (heigen : IsEigenbasis (kernel.eigenvectors (mixing m a b)) (mixing m a b)) (h : Separates a b (eigenphases m.toMatrix)) :
    ∃ p, basisOfMixing? kernel m a b = some p := by
  refine ⟨_, basisOfMixing?_eq_some_iff.2 ⟨?_, rfl⟩⟩
  rw [Dense.maxOffDiagonal_eq_zero (isDiag_congruence_of_separates hm hsymm heigen h)]
  change ¬(1e-9 : ℝ) < 0
  norm_num

/-- Wherever the eigenvectors that are found are orthonormal, what `diagonalize` makes of the Gram matrix of a unitary matrix is a
rotation that diagonalizes it, with the eigenphases in order; and it makes something of it unless every pair of draws takes one
value on two eigenphases. The matrices whose eigenvectors are asked for are real and symmetric (`isSymm_mixing`), so that a
routine for symmetric matrices meets the assumption (`isEigenbasis_mixing`). -/
theorem diagonalize_spec (draws : ℕ → ℝ) (attempts : ℕ) {v : Dense (Amplitude ℝ) 4 4} (hv : v.toMatrix ∈ unitaryGroup (Fin 4) ℂ)
    (heigen : ∀ a b, IsEigenbasis (kernel.eigenvectors (mixing (v.transpose.dot v) a b)) (mixing (v.transpose.dot v) a b)) :
    (∀ p, diagonalize kernel draws attempts (v.transpose.dot v) = .ok p → IsDiagonalizer p (v.transpose.dot v)) ∧
      ((∃ k < attempts, Separates (draws (2 * k)) (draws (2 * k + 1)) (eigenphases (v.transpose.dot v).toMatrix)) →
        ∃ p, diagonalize kernel draws attempts (v.transpose.dot v) = .ok p) := by
  have hgram : (v.transpose.dot v).toMatrix = v.toMatrixᵀ * v.toMatrix := by
    rw [Dense.toMatrix_dot, Dense.toMatrix_transpose]
  have hunitary : (v.transpose.dot v).toMatrix ∈ unitaryGroup (Fin 4) ℂ := by
    rw [hgram]
    exact mul_mem (transpose_mem_unitaryGroup_iff.2 hv) hv
  have hsymm := isSymm_transpose_dot v
  constructor
  · intro p hp
    obtain ⟨a, b, hbasis⟩ := exists_of_findBasis?_eq_some (diagonalize_eq_ok_iff.1 hp)
    exact isDiagonalizer_of_basisOfMixing? (heigen a b) hbasis
  · rintro ⟨k, hk, hseparates⟩
    -- draws before the separating ones may do as well, so that the basis found need not be the one of draw `k`
    obtain ⟨p, hp⟩ := exists_basisOfMixing? hunitary hsymm (heigen _ _) hseparates
    cases hfound : findBasis? kernel draws (v.transpose.dot v) attempts 0 with
    | some p => exact ⟨p, diagonalize_eq_ok_iff.2 hfound⟩
    | none =>
      have hrefused := findBasis?_eq_none_iff.1 hfound k hk
      rw [Nat.zero_add] at hrefused
      exact nomatch hrefused.symm.trans hp

end Search

section Phases

/-- The eigenphases of a diagonal matrix of phases are the angles on its diagonal. -/
lemma eigenphases_diagonal {n : ℕ} {angles : Fin n → ℝ} (h : ∀ i, angles i ∈ Set.Ioc (-Real.pi) Real.pi) :
    eigenphases (diagonal fun i => Complex.exp (angles i * Complex.I)) = Set.range angles := by
  have harg (i : Fin n) : (Complex.exp (angles i * Complex.I)).arg = angles i := by
    rw [Complex.exp_mul_I, Complex.arg_cos_add_sin_mul_I (h i)]
  rw [eigenphases, spectrum_diagonal, ← Set.range_comp]
  exact congrArg Set.range (funext harg)

/-- The operator that turns the last two states by an eighth of a turn in opposite directions. -/
noncomputable def eighthTurns : Dense (Amplitude ℝ) 4 4 :=
  .ofDiagonal fun i => Amplitude.phase (![0, 0, Real.pi / 4, -(Real.pi / 4)] i)

/-- The operator of the example is unitary. -/
lemma eighthTurns_mem_unitary : eighthTurns.toMatrix ∈ unitaryGroup (Fin 4) ℂ := by
  rw [eighthTurns, Dense.toMatrix_ofDiagonal, mem_unitaryGroup_iff', star_eq_conjTranspose, diagonal_conjTranspose,
    diagonal_mul_diagonal, ← diagonal_one]
  congr 1
  funext i
  rw [Pi.star_apply, Amplitude.toComplex_phase, Complex.star_def, Complex.conj_mul', Complex.norm_exp_ofReal_mul_I]
  norm_num

/-- The symmetric matrix of the example turns two states by a quarter in opposite directions. -/
lemma toMatrix_gram_eighthTurns : (eighthTurns.transpose.dot eighthTurns).toMatrix =
    diagonal fun i => Complex.exp ((![0, 0, Real.pi / 2, -(Real.pi / 2)] i : ℝ) * Complex.I) := by
  rw [Dense.toMatrix_dot, Dense.toMatrix_transpose, eighthTurns, Dense.toMatrix_ofDiagonal, diagonal_transpose,
    diagonal_mul_diagonal]
  congr 1
  funext i
  rw [Amplitude.toComplex_phase, ← Complex.exp_ofReal_add_mul_I]
  congr 3
  fin_cases i <;> simp <;> ring

/-- The draws of the example separate its three eigenphases. -/
lemma separates_quarterTurns : Separates (1 / 2) (1 / 4) (eigenphases (eighthTurns.transpose.dot eighthTurns).toMatrix) := by
  have hpi := Real.pi_pos
  rw [toMatrix_gram_eighthTurns, eigenphases_diagonal fun i => by fin_cases i <;> simp <;> constructor <;> linarith]
  rintro _ ⟨i, rfl⟩ _ ⟨j, rfl⟩
  fin_cases i <;> fin_cases j <;> norm_num

/-- The first pair of draws takes one value on all eigenphases, and the second pair separates them. -/
theorem diagonalize_spec_eighthTurns : ∃ p, diagonalize .standard (![0, 0, 1 / 2, 1 / 4] ∘ Fin.ofNat 4) 2
    (eighthTurns.transpose.dot eighthTurns) = .ok p ∧ IsDiagonalizer p (eighthTurns.transpose.dot eighthTurns) := by
  have hdiag : (eighthTurns.transpose.dot eighthTurns).toMatrix.IsDiag := by
    rw [toMatrix_gram_eighthTurns]
    exact isDiag_diagonal _
  obtain ⟨hsound, hcomplete⟩ := diagonalize_spec (![0, 0, 1 / 2, 1 / 4] ∘ Fin.ofNat 4) 2
    eighthTurns_mem_unitary (isEigenbasis_standard hdiag)
  obtain ⟨p, hp⟩ := hcomplete ⟨1, one_lt_two, separates_quarterTurns⟩
  exact ⟨p, hp, hsound p hp⟩

end Phases

end CircuitSynthesis.TwoQubit
