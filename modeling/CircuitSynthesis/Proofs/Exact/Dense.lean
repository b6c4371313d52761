import Mathlib
import CircuitSynthesis.Dense
import CircuitSynthesis.Proofs.Exact.Amplitude

/-!
# Dense matrices as matrices

Over the real numbers a dense matrix of amplitudes is a matrix of complex numbers: `toMatrix` is injective and takes every
operation on dense matrices to the operation of the same name; `toReal` does the same for matrices of real numbers. The
deviation of an exactly unitary matrix is zero, and a matrix whose largest entry off the diagonal is bounded has all of
these entries bounded.
-/

namespace CircuitSynthesis.Dense

open Matrix

variable {m n k : ℕ}

/-- The matrix of complex numbers with the same entries. -/
def toMatrix (M : Dense (Amplitude ℝ) m n) : Matrix (Fin m) (Fin n) ℂ := fun i j => (M.get i j).toComplex

/-- The dense matrix with the entries of a matrix of complex numbers. -/
def ofMatrix (M : Matrix (Fin m) (Fin n) ℂ) : Dense (Amplitude ℝ) m n := .ofFn fun i j => .ofComplex (M i j)

/-- The entries of the matrix are the complex numbers of the entries that are stored. -/
lemma toMatrix_apply (M : Dense (Amplitude ℝ) m n) (i : Fin m) (j : Fin n) : M.toMatrix i j = (M.get i j).toComplex := rfl

@[simp] lemma toMatrix_ofMatrix (M : Matrix (Fin m) (Fin n) ℂ) : (ofMatrix M).toMatrix = M := by
  ext i j
  rw [toMatrix_apply, ofMatrix, get_ofFn, Amplitude.toComplex_ofComplex]

@[simp] lemma ofMatrix_toMatrix (M : Dense (Amplitude ℝ) m n) : ofMatrix M.toMatrix = M := by
  ext1 i j
  rw [ofMatrix, get_ofFn, toMatrix_apply, Amplitude.ofComplex_toComplex]

/-- A matrix that is stored is known by its complex matrix. -/
lemma toMatrix_injective : Function.Injective (toMatrix (m := m) (n := n)) := by
  intro M N h
  ext1 i j
  exact Amplitude.toComplex_injective (congrFun (congrFun h i) j)

/-- A cast between dimensions that are the same does nothing. -/
@[simp] lemma cast_rfl {α : Type} (M : Dense α m n) : M.cast rfl rfl = M := by
  ext1 i j
  rw [Dense.cast, get_ofFn]
  rfl

section Operations

/-! `toMatrix` takes every operation on stored matrices to the one on matrices. -/

variable (M N : Dense (Amplitude ℝ) m n)

@[simp] lemma toMatrix_ofFn (f : Fin m → Fin n → Amplitude ℝ) :
    (ofFn f).toMatrix = Matrix.of fun i j => (f i j).toComplex := by
  ext i j
  rw [toMatrix_apply, get_ofFn, Matrix.of_apply]

/-- The product, entry by entry, is the matrix product. -/
@[simp] lemma toMatrix_dot (M : Dense (Amplitude ℝ) m k) (N : Dense (Amplitude ℝ) k n) :
    (M.dot N).toMatrix = M.toMatrix * N.toMatrix := by
  ext i j
  rw [dot, toMatrix_ofFn, Matrix.of_apply, Amplitude.toComplex_sumFin, Matrix.mul_apply]
  simp only [Amplitude.toComplex_mul, toMatrix_apply]

@[simp] lemma toMatrix_dagger : M.dagger.toMatrix = M.toMatrixᴴ := by
  ext i j
  rw [dagger, toMatrix_ofFn]
  rfl

@[simp] lemma toMatrix_identity : (identity : Dense (Amplitude ℝ) n n).toMatrix = 1 := by
  ext i j
  rw [identity, ofDiagonal, toMatrix_ofFn, Matrix.of_apply, Matrix.one_apply]
  split <;> simp

@[simp] lemma toMatrix_sub : (M - N).toMatrix = M.toMatrix - N.toMatrix := by
  ext i j
  change ((ofFn fun i j => M.get i j - N.get i j).get i j).toComplex = _
  rw [get_ofFn, Amplitude.toComplex_sub]
  rfl

@[simp] lemma toMatrix_scale (z : Amplitude ℝ) : (M.scale z).toMatrix = z.toComplex • M.toMatrix := by
  ext i j
  rw [scale, map, toMatrix_ofFn, Matrix.of_apply, Amplitude.toComplex_mul, mul_comm]
  rfl

@[simp] lemma length_diagonal {α : Type} (M : Dense α n n) : M.diagonal.length = n := by
  simp [diagonal]

/-- The diagonal lists the entries on it, from the top. -/
lemma getElem_diagonal {α : Type} (M : Dense α n n) {x : ℕ} (hx : x < M.diagonal.length) :
    M.diagonal[x] = M.get ⟨x, by simpa using hx⟩ ⟨x, by simpa using hx⟩ := by
  simp [diagonal]

@[simp] lemma toMatrix_transpose : M.transpose.toMatrix = M.toMatrixᵀ := by
  ext i j
  rw [transpose, toMatrix_ofFn]
  rfl

@[simp] lemma toMatrix_ofDiagonal (d : Fin n → Amplitude ℝ) :
    (ofDiagonal d).toMatrix = Matrix.diagonal fun i => (d i).toComplex := by
  ext i j
  rw [ofDiagonal, toMatrix_ofFn, Matrix.of_apply, diagonal_apply]
  split <;> rfl

/-- The squared norm sums the squared moduli of all entries. -/
lemma normSq_eq_sum : M.normSq = ∑ i, ∑ j, Complex.normSq (M.toMatrix i j) := by
  rw [normSq, Scalar.sumFin_real]
  exact Finset.sum_congr rfl fun i _ => Scalar.sumFin_real _

/-- The zero matrix has norm zero. -/
lemma norm_eq_zero {M : Dense (Amplitude ℝ) m n} (hM : M.toMatrix = 0) : M.norm = 0 := by
  rw [norm, normSq_eq_sum, hM]
  simp

end Operations

section Real

/-! Stored real matrices have the same operations under `toReal`. -/

/-- The matrix of real numbers with the same entries. -/
def toReal (M : Dense ℝ m n) : Matrix (Fin m) (Fin n) ℝ := fun i j => M.get i j

@[simp] lemma toReal_ofFn (f : Fin m → Fin n → ℝ) : (ofFn f).toReal = Matrix.of f := by
  ext i j
  exact get_ofFn f i j

@[simp] lemma toReal_transpose (M : Dense ℝ m n) : M.transpose.toReal = M.toRealᵀ := by
  ext i j
  exact get_ofFn _ i j

@[simp] lemma toReal_dot (M : Dense ℝ m k) (N : Dense ℝ k n) : (M.dot N).toReal = M.toReal * N.toReal := by
  ext i j
  rw [dot, toReal_ofFn, Matrix.of_apply, Scalar.sumFin_real, Matrix.mul_apply]
  rfl

@[simp] lemma toReal_identity : (identity : Dense ℝ n n).toReal = 1 := by
  ext i j
  rw [identity, ofDiagonal, toReal_ofFn, Matrix.of_apply, Matrix.one_apply]

@[simp] lemma toMatrix_complexify (M : Dense ℝ m n) : M.complexify.toMatrix = M.toReal.map (algebraMap ℝ ℂ) := by
  ext i j
  rw [complexify, map, toMatrix_ofFn, Matrix.of_apply, Amplitude.toComplex_ofReal]
  rfl

end Real

section Determinants

/-- Pairing the minors of the upper and the lower half computes a determinant. -/
lemma det4_ofFn {A : Type} [CommRing A] (M : Matrix (Fin 4) (Fin 4) A) : (ofFn fun i j => M i j).det4 = M.det := by
  rw [Matrix.det_succ_row_zero]
  simp only [det4, get_ofFn, Fin.sum_univ_four, Matrix.det_fin_three, Matrix.submatrix_apply]
  simp [Fin.succAbove, Fin.lt_def]
  ring

/-- Pairing the minors of the upper and the lower half gives the determinant, by Laplace expansion. -/
@[simp] lemma toComplex_det4 (M : Dense (Amplitude ℝ) 4 4) : M.det4.toComplex = M.toMatrix.det := by
  rw [← det4_ofFn]
  simp only [det4, Amplitude.toComplex_add, Amplitude.toComplex_sub, Amplitude.toComplex_mul, get_ofFn]
  rfl

/-- Of a real matrix the paired minors give the determinant as well. -/
@[simp] lemma det4_real (M : Dense ℝ 4 4) : M.det4 = M.toReal.det := by
  rw [← det4_ofFn]
  simp only [det4, get_ofFn]
  rfl

end Determinants

section Judgements

/-- An exactly unitary matrix does not deviate. -/
lemma unitarityDeviation_eq_zero {U : Dense (Amplitude ℝ) n n} (hU : U.toMatrix ∈ unitaryGroup (Fin n) ℂ) :
    U.unitarityDeviation = 0 := by
  refine norm_eq_zero ?_
  rw [toMatrix_sub, toMatrix_scale, toMatrix_dot, toMatrix_dagger, toMatrix_identity, Amplitude.toComplex_one, one_smul,
    ← star_eq_conjTranspose, mem_unitaryGroup_iff.1 hU, sub_self]

/-- A fold whose steps stay below a bound ends below it. -/
lemma foldl_le {f : ℝ → Fin n → ℝ} {b : ℝ} (hf : ∀ x i, x ≤ b → f x i ≤ b) {x : ℝ} (hx : x ≤ b) : Fin.foldl n f x ≤ b := by
  induction n with
  | zero => rwa [Fin.foldl_zero]
  | succ n ih =>
    rw [Fin.foldl_succ_last]
    exact hf _ _ (ih fun x i => hf x i.castSucc)

/-- A fold that never falls stays above its start. -/
lemma le_foldl {f : ℝ → Fin n → ℝ} (hf : ∀ x i, x ≤ f x i) (x : ℝ) : x ≤ Fin.foldl n f x := by
  induction n with
  | zero => rw [Fin.foldl_zero]
  | succ n ih =>
    rw [Fin.foldl_succ_last]
    exact (ih fun x i => hf x i.castSucc).trans (hf _ _)

/-- A fold that never falls ends above what one of its steps reaches. -/
lemma le_foldl_of_le {f : ℝ → Fin n → ℝ} (hf : ∀ x i, x ≤ f x i) {i : Fin n} {y : ℝ} (hi : ∀ x, y ≤ f x i) (x : ℝ) :
    y ≤ Fin.foldl n f x := by
  induction n with
  | zero => exact i.elim0
  | succ n ih =>
    rw [Fin.foldl_succ_last]
    cases i using Fin.lastCases with
    | last => exact hi _
    | cast i => exact (ih (fun x i => hf x i.castSucc) hi).trans (hf _ _)

/-- Going through an entry does not lower the largest one so far. -/
lemma le_offDiagonal_step (M : Dense (Amplitude ℝ) m n) (i : Fin m) (x : ℝ) (j : Fin n) :
    x ≤ if i.val = j.val then x else Scalar.maximum x (M.get i j).norm := by
  split
  · exact le_rfl
  · exact Scalar.le_maximum_left _ _

/-- The largest modulus off the diagonal is not negative. -/
lemma maxOffDiagonal_nonneg (M : Dense (Amplitude ℝ) m n) : 0 ≤ M.maxOffDiagonal :=
  le_foldl (fun x i => le_foldl (M.le_offDiagonal_step i) x) 0

/-- The largest entry off the diagonal bounds all of them. -/
lemma norm_le_maxOffDiagonal (M : Dense (Amplitude ℝ) m n) {i : Fin m} {j : Fin n} (hij : i.val ≠ j.val) :
    ‖M.toMatrix i j‖ ≤ M.maxOffDiagonal := by
  refine le_foldl_of_le (i := i) (fun x i => le_foldl (M.le_offDiagonal_step i) x) (fun x => ?_) 0
  refine le_foldl_of_le (i := j) (M.le_offDiagonal_step i) (fun x => ?_) x
  rw [if_neg hij]
  exact Scalar.le_maximum_right _ _

/-- The largest entry off the diagonal is below what bounds all of them. -/
lemma maxOffDiagonal_le {M : Dense (Amplitude ℝ) m n} {b : ℝ} (hb : 0 ≤ b)
    (h : ∀ i j, i.val ≠ j.val → ‖M.toMatrix i j‖ ≤ b) : M.maxOffDiagonal ≤ b := by
  refine foldl_le (fun x i hx => foldl_le (fun x j hx => ?_) hx) hb
  split
  case isTrue => exact hx
  case isFalse hij => exact Scalar.maximum_le hx (h i j hij)

/-- Of a diagonal matrix the largest entry off the diagonal is zero. -/
lemma maxOffDiagonal_eq_zero {M : Dense (Amplitude ℝ) n n} (hM : M.toMatrix.IsDiag) : M.maxOffDiagonal = 0 := by
  refine le_antisymm (maxOffDiagonal_le le_rfl fun i j hij => ?_) M.maxOffDiagonal_nonneg
  rw [hM fun h => hij (congrArg Fin.val h), norm_zero]

end Judgements

end CircuitSynthesis.Dense
