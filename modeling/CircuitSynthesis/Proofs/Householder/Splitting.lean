import Mathlib
import CircuitSynthesis.Proofs.Householder.Steps
import CircuitSynthesis.Proofs.Register.Corner

/-!
# Splitting a unitary matrix

A number of steps splits a unitary matrix in two. The rows and columns that were reduced keep to the diagonal, with entries
of modulus one; nothing computes the entries to the right of the diagonal there, they vanish because the matrix stays
unitary. The other rows and columns keep to themselves and are unitary too. `Reducer.splits_of_unitary` says so of every
unitary matrix and every number of steps, and that the matrices of the reflectors multiply up to what was split.
-/

namespace CircuitSynthesis

open Matrix
open Complex (I)

namespace Householder

section Block

variable {N : ℕ} {A : Matrix (Fin N) (Fin N) ℂ} {j : ℕ}

/-- Once the first columns of a unitary matrix are reduced, the other indices keep to themselves. -/
lemma Reduced.submatrix_mem_unitary {κ : Type} [Fintype κ] [DecidableEq κ] {σ : κ → Fin N} (hA : Reduced A j)
    (hσ : Function.Injective σ) (hlow : ∀ x, j ≤ (σ x).val) (hrange : ∀ i, j ≤ i.val → ∃ x, i = σ x) :
    A.submatrix σ σ ∈ unitaryGroup κ ℂ := by
  refine mem_unitary_of_mul_inclusion hσ hA.unitary ?_
  ext i y
  have hleft : (A * inclusion σ) i y = A i (σ y) := by
    simp [Matrix.mul_apply, inclusion_apply]
  have hright : (inclusion σ * A.submatrix σ σ) i y = (inclusion σ *ᵥ fun x => A (σ x) (σ y)) i := rfl
  rw [hleft, hright]
  rcases lt_or_ge i.val j with hi | hi
  · have hne (x : κ) : i ≠ σ x := fun h => absurd (hlow x) (not_le.2 (h ▸ hi))
    rw [hA.row hi (hne y).symm, inclusion_mulVec_of_forall_ne hne]
  · obtain ⟨x, rfl⟩ := hrange i hi
    rw [inclusion_mulVec_apply hσ]

/-- An index from `j` on. -/
def indexFrom (j : ℕ) (x : Fin (N - j)) : Fin N := ⟨j + x, by have := x.isLt; omega⟩

/-- Different positions from `j` on are different indices. -/
lemma indexFrom_injective (j : ℕ) : Function.Injective (indexFrom (N := N) j) := fun _ _ h =>
  Fin.ext (Nat.add_left_cancel (congrArg Fin.val h))

/-- The block of a matrix on the rows and columns from `j` on. -/
def lowerRight (j : ℕ) (A : Matrix (Fin N) (Fin N) ℂ) : Matrix (Fin (N - j)) (Fin (N - j)) ℂ :=
  A.submatrix (indexFrom j) (indexFrom j)

/-- The block that is left after some columns are reduced is unitary. -/
lemma Reduced.lowerRight_mem_unitary (hA : Reduced A j) : lowerRight j A ∈ unitaryGroup (Fin (N - j)) ℂ :=
  hA.submatrix_mem_unitary (indexFrom_injective j) (fun x => Nat.le_add_right j x) fun i hi =>
    ⟨⟨i - j, by have := i.isLt; omega⟩, Fin.ext (Nat.add_sub_of_le hi).symm⟩

end Block

section Matrices

variable {N : ℕ}

/-- The matrix of a reflector is the reflection along its direction. -/
@[simp] lemma Reflector.toMatrix_matrix (r : Reflector ℝ N) : r.matrix.toMatrix = reflection r.direction := by
  ext i j
  rw [matrix, Dense.toMatrix_ofFn, Matrix.of_apply, Amplitude.toComplex_sub, Amplitude.toComplex_ofReal, Amplitude.toComplex_mul,
    Amplitude.toComplex_smul, Amplitude.toComplex_conj, Scalar.two_real, reflection, Matrix.sub_apply, Matrix.smul_apply,
    vecMulVec_apply, one_apply, smul_eq_mul, ← mul_assoc]
  congr 1
  split <;> simp

/-- The product of the matrices of the reflectors that some steps returned, the first of them on the left. -/
noncomputable def reflectorProduct (rs : List (Option (Reflector ℝ N))) : Matrix (Fin N) (Fin N) ℂ :=
  ((rs.filterMap id).map fun r => r.matrix.toMatrix).prod

/-- The product over the reflectors of a reduction is the product of their reflections. -/
lemma reflectorProduct_eq (rs : List (Option (Reflector ℝ N))) : reflectorProduct rs = reflections (directions rs) := by
  simp only [reflectorProduct, Reflector.toMatrix_matrix, reflections, directions, List.map_map, Function.comp_def]

end Matrices

namespace Reducer

variable {N : ℕ}

/-- Whether a matrix is split by what a number of steps returned and left of it. -/
structure Splits (A : Dense (Amplitude ℝ) N N) (count : ℕ) (rs : List (Option (Reflector ℝ N)))
    (work : Dense (Amplitude ℝ) N N) : Prop where
  length : rs.length = count
  /-- A reflector has a unit vector, zero above the column that it cleared. -/
  clears : ∀ k (r : Reflector ℝ N), rs[k]? = some (some r) → r.Clears k
  hermitian : ∀ r, some r ∈ rs → r.matrix.toMatrix.IsHermitian
  unitary : ∀ r, some r ∈ rs → r.matrix.toMatrix ∈ unitaryGroup (Fin N) ℂ
  diagonal : ∀ i, i.val < count → ‖work.toMatrix i i‖ = 1
  clear : ∀ i c, i.val < count ∨ c.val < count → i ≠ c → work.toMatrix i c = 0
  rest : lowerRight count work.toMatrix ∈ unitaryGroup (Fin (N - count)) ℂ
  /-- The reflections take what is left back to the matrix. -/
  product : A.toMatrix = reflectorProduct rs * work.toMatrix

/-- Steps on a unitary matrix that skip only columns which are zero below the diagonal do not fail, and split the matrix. -/
theorem splits_of_unitary {A : Dense (Amplitude ℝ) N N} (hA : A.toMatrix ∈ unitaryGroup (Fin N) ℂ) {count : ℕ}
    (hcount : count ≤ N) (hskip : SkipsExactly count (ofDense A)) :
    ∃ (rs : List (Option (Reflector ℝ N))) (work : Dense (Amplitude ℝ) N N),
      ((steps count).run (ofDense A)).run = (.ok rs, ⟨work, count⟩) ∧ Splits A count rs work := by
  obtain ⟨rs, work, hrun, hwork, hlength, hclears, hproduct⟩ := steps_run_ofDense hA hcount hskip
  have hunit (r : Reflector ℝ N) (hr : some r ∈ rs) : star r.direction ⬝ᵥ r.direction = 1 := by
    obtain ⟨k, hk⟩ := List.mem_iff_getElem?.1 hr
    exact (hclears k r hk).unit
  refine ⟨rs, work, hrun, hlength, hclears, fun r _ => ?_, fun r hr => ?_, fun i hi => ?_, fun i c hic hne => ?_,
    hwork.lowerRight_mem_unitary, ?_⟩
  · rw [Reflector.toMatrix_matrix]
    exact reflection_conjTranspose _
  · rw [Reflector.toMatrix_matrix]
    exact reflection_mem_unitary (hunit r hr)
  · have hsq := hwork.normSq_diagonal hi
    rw [Complex.normSq_eq_norm_sq] at hsq
    exact (pow_eq_one_iff_of_nonneg (norm_nonneg _) two_ne_zero).1 hsq
  · rcases hic with hi | hc
    · exact hwork.row hi hne.symm
    · exact hwork.column i c hc hne
  · rw [hproduct, reflectorProduct_eq]

section Example

/-- The exchange of the first two of three basis states, with a phase on the third. -/
noncomputable def phasedSwap : Dense (Amplitude ℝ) 3 3 := .ofMatrix !![0, 1, 0; 1, 0, 0; 0, 0, I]

/-- The exchange with phases is unitary. -/
lemma phasedSwap_mem_unitary : phasedSwap.toMatrix ∈ unitaryGroup (Fin 3) ℂ := by
  rw [phasedSwap, Dense.toMatrix_ofMatrix, mem_unitaryGroup_iff, star_eq_conjTranspose]
  ext i j
  rw [Matrix.mul_apply, Fin.sum_univ_three]
  fin_cases i <;> fin_cases j <;> simp

/-- The first column is reflected, after which the second is clear. -/
lemma skipsExactly_phasedSwap : SkipsExactly 2 (ofDense phasedSwap) := by
  have hstart : Reduced (ofDense phasedSwap).work.toMatrix (ofDense phasedSwap).next :=
    ⟨phasedSwap_mem_unitary, fun _ _ h => absurd h (Nat.not_lt_zero _)⟩
  have hpos : (ofDense phasedSwap).next < 3 := Nat.succ_pos 2
  have hlong := hstart.minColumnNorm_le hpos
  have hreflect : ¬Skips (ofDense phasedSwap).work hpos := by
    intro h
    have hsmall := norm_le_of_skips h (show (ofDense phasedSwap).next < (1 : Fin 3).val from Nat.one_pos)
    have hentry : (ofDense phasedSwap).work.toMatrix 1 ⟨(ofDense phasedSwap).next, hpos⟩ = 1 := by
      simp [ofDense, phasedSwap]
    rw [hentry, hstart.columnNorm_eq_one, norm_one, reducedRatio_eq] at hsmall
    norm_num at hsmall
  have hstep := step_of_not_skips hpos hpos hlong hreflect
  refine ⟨fun h => ?_, ?_, trivial⟩
  · rw [hstep] at h
    cases h
  · rw [hstep]
    intro _ i c hc hi
    -- the row below is untouched, since the third entry of the first column is zero
    obtain rfl : i = 2 := Fin.ext (by have := i.isLt; have : 1 < i.val := hi; omega)
    obtain rfl : c = 1 := Fin.ext hc
    have hzero : (columnReflector (ofDense phasedSwap).work hpos hpos).direction 2 = 0 :=
      direction_columnReflector_eq_zero _ hpos hpos hi.le (by simp [ofDense, phasedSwap])
    have hkeep : (ofDense phasedSwap).work.toMatrix 2 1 = 0 := by
      simp [ofDense, phasedSwap]
    change ((ofDense phasedSwap).reflected hpos hpos).work.toMatrix 2 1 = 0
    rw [(isCleared_of_reduced hstart).toMatrix_reflected hpos hpos hlong, reflection_mul_apply, hzero, hkeep]
    ring

end Example

/-- An exchange with a phase, of which two columns are reduced. -/
theorem splits_of_unitary_phasedSwap : ∃ (rs : List (Option (Reflector ℝ 3))) (work : Dense (Amplitude ℝ) 3 3),
    ((steps 2).run (ofDense phasedSwap)).run = (.ok rs, ⟨work, 2⟩) ∧ Splits phasedSwap 2 rs work :=
  splits_of_unitary phasedSwap_mem_unitary (by decide) skipsExactly_phasedSwap

end Reducer

end Householder

end CircuitSynthesis
