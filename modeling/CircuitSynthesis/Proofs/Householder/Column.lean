import Mathlib
import CircuitSynthesis.Householder.Reducer
import CircuitSynthesis.Proofs.Exact.Dense
import CircuitSynthesis.Proofs.Householder.Reflection

/-!
# The reduction of a column

Column `j` of a matrix is reduced by the reflection along the mirror of its part from row `j` on. The mirror is no shorter
than that part, so a column that is long enough is either skipped or reduced. What the reducer computes from row and
column `j` on is the reflection of the matrix as a whole (`toMatrix_reduced`), if the columns before are clear.
-/

namespace CircuitSynthesis

open Matrix
open Complex (I exp)

namespace Householder

section Column

variable {m n : ℕ}

/-- The vector along which a reflector reflects. -/
def Reflector.direction (r : Reflector ℝ m) (i : Fin m) : ℂ := (r.vector.get i).toComplex

/-- Whether a reflector clears column `j`: its vector is a unit vector and zero above row `j`. -/
structure Reflector.Clears (r : Reflector ℝ m) (j : ℕ) : Prop where
  column : r.column = j
  unit : star r.direction ⬝ᵥ r.direction = 1
  above : ∀ i, i.val < j → r.direction i = 0

/-- A vector with its entries above row `j` cleared. -/
noncomputable def tail (j : ℕ) (f : Fin m → Amplitude ℝ) (i : Fin m) : ℂ := (fromRow j f i).toComplex

/-- A tail is zero above its row. -/
lemma tail_of_lt {j : ℕ} (f : Fin m → Amplitude ℝ) {i : Fin m} (h : i.val < j) : tail j f i = 0 := by
  rw [tail, fromRow, if_pos h, Amplitude.toComplex_zero]

/-- From its row on a tail has the entries of the vector. -/
lemma tail_of_le {j : ℕ} (f : Fin m → Amplitude ℝ) {i : Fin m} (h : j ≤ i.val) : tail j f i = (f i).toComplex := by
  rw [tail, fromRow, if_neg (not_lt.2 h)]

/-- The squared norm of a tail is its inner product with itself. -/
lemma tailNormSq_eq (j : ℕ) (f : Fin m → Amplitude ℝ) : ((tailNormSq j f : ℝ) : ℂ) = star (tail j f) ⬝ᵥ tail j f := by
  rw [tailNormSq, Scalar.sumFin_real, Complex.ofReal_sum, dotProduct]
  refine Finset.sum_congr rfl fun i _ => ?_
  rw [Pi.star_apply, Complex.star_def, ← Complex.normSq_eq_conj_mul_self, tail, fromRow]
  split
  · rw [Amplitude.toComplex_zero, map_zero]
  · rfl

/-- The squared norm of a tail is not negative. -/
lemma tailNormSq_nonneg (j : ℕ) (f : Fin m → Amplitude ℝ) : 0 ≤ (tailNormSq j f : ℝ) := by
  rw [tailNormSq, Scalar.sumFin_real]
  refine Finset.sum_nonneg fun i _ => ?_
  split
  · exact le_rfl
  · exact Complex.normSq_nonneg (f i).toComplex

/-- No entry from the row on is longer than the tail. -/
lemma norm_le_sqrt_tailNormSq {j : ℕ} (f : Fin m → Amplitude ℝ) {i : Fin m} (hi : j ≤ i.val) :
    ‖(f i).toComplex‖ ≤ √(tailNormSq j f) := by
  refine Real.le_sqrt_of_sq_le ?_
  rw [tailNormSq, Scalar.sumFin_real]
  refine le_trans (le_of_eq ?_) (Finset.single_le_sum (fun k _ => ?_) (Finset.mem_univ i))
  · rw [if_neg (not_lt.2 hi), Amplitude.normSq_eq_norm_sq]
  · split
    · exact le_rfl
    · exact Complex.normSq_nonneg (f k).toComplex

/-- The partial inner product is the one with the tail of the first vector. -/
lemma tailInner_eq (j : ℕ) (u g : Fin m → Amplitude ℝ) :
    (tailInner j u g).toComplex = star (tail j u) ⬝ᵥ fun i => (g i).toComplex := by
  rw [tailInner, Amplitude.toComplex_sumFin, dotProduct]
  refine Finset.sum_congr rfl fun i _ => ?_
  rw [Pi.star_apply, tail, fromRow]
  split
  · rw [Amplitude.toComplex_zero, star_zero, zero_mul]
  · rw [Amplitude.toComplex_mul, Amplitude.toComplex_conj]

/-- The rows above `j` do not count in an inner product with a tail. -/
lemma star_tail_dotProduct_congr {j : ℕ} (u : Fin m → Amplitude ℝ) {f g : Fin m → ℂ} (h : ∀ i : Fin m, j ≤ i.val → f i = g i) :
    star (tail j u) ⬝ᵥ f = star (tail j u) ⬝ᵥ g := by
  refine Finset.sum_congr rfl fun i _ => ?_
  by_cases hi : i.val < j
  · rw [Pi.star_apply, tail_of_lt u hi, star_zero, zero_mul, zero_mul]
  · rw [h i (not_lt.1 hi)]

/-- Updating a matrix from row and column `j` on is reflecting it as a whole, if the columns before are clear from row
`j` on and the reflection takes column `j` to its new entry. -/
lemma toMatrix_reflectFrom {work : Dense (Amplitude ℝ) m n} {j : ℕ} (hm : j < m) (hn : j < n) {u : Fin m → Amplitude ℝ}
    {alpha : Amplitude ℝ} (hclear : ∀ i c, c.val < j → j ≤ i.val → work.toMatrix i c = 0)
    (hcolumn : reflection (tail j u) *ᵥ tail j (fun i => work.get i ⟨j, hn⟩) = Pi.single ⟨j, hm⟩ alpha.toComplex) :
    (reflectFrom ⟨j, hn⟩ u alpha work).toMatrix = reflection (tail j u) * work.toMatrix := by
  ext r c
  rw [reflection_mul_apply, reflectFrom, Dense.toMatrix_ofFn, Matrix.of_apply]
  by_cases hkeep : r.val < j ∨ c < ⟨j, hn⟩
  · -- the vector is zero in the rows above, and orthogonal to the columns before
    rw [if_pos hkeep]
    rcases hkeep with hr | hc
    · rw [tail_of_lt u hr, mul_zero, zero_mul, sub_zero]
      rfl
    · have hzero : (star (tail j u) ⬝ᵥ fun i => work.toMatrix i c) = 0 :=
        (star_tail_dotProduct_congr u fun i hi => hclear i c hc hi).trans (dotProduct_zero _)
      rw [hzero, mul_zero, sub_zero]
      rfl
  · rw [if_neg hkeep]
    have hr : j ≤ r.val := not_lt.1 fun h => hkeep (.inl h)
    by_cases hc : c = ⟨j, hn⟩
    · subst hc
      have hinner : (star (tail j u) ⬝ᵥ tail j fun i => work.get i ⟨j, hn⟩) =
          star (tail j u) ⬝ᵥ fun i => work.toMatrix i ⟨j, hn⟩ := star_tail_dotProduct_congr u fun i hi => tail_of_le _ hi
      have h := congrFun hcolumn r
      rw [reflection_mulVec, hinner, Pi.sub_apply, Pi.smul_apply, tail_of_le _ hr, smul_eq_mul, mul_right_comm] at h
      rw [if_pos rfl]
      refine Eq.trans ?_ h.symm
      simp [Pi.single_apply, Fin.ext_iff, apply_ite Amplitude.toComplex]
    · rw [if_neg hc, Vector.get_ofFn, Amplitude.toComplex_sub, Amplitude.toComplex_mul, Amplitude.toComplex_smul,
        tailInner_eq, Scalar.two_real, tail_of_le u hr]
      rfl

/-- The shortest column that may be normalized. -/
lemma minColumnNorm_eq : (minColumnNorm : ℝ) = (10 ^ 300)⁻¹ := by
  refine (Scalar.ofScientific_real 1 300).trans ?_
  rw [Nat.cast_one, one_div]

/-- The shortest column that may be normalized has some length. -/
lemma minColumnNorm_pos : (0 : ℝ) < minColumnNorm := by
  rw [minColumnNorm_eq]
  positivity

/-- A column that is long enough passes. -/
lemma checkNorm_eq_ok {column : ℕ} {norm : ℝ} (h : minColumnNorm ≤ norm) : checkNorm column norm = .ok () := by
  rw [checkNorm, Scalar.isFinite_real]
  simp [not_lt.2 h]

/-- A column that is too short overflows, with its index and its norm. -/
lemma checkNorm_eq_error {column : ℕ} {norm : ℝ} (h : norm < minColumnNorm) :
    checkNorm column norm = .error (.overflow .householder column norm) := by
  rw [checkNorm, Scalar.isFinite_real]
  simp [h]

end Column

section Reduce

variable {m n : ℕ} (work : Dense (Amplitude ℝ) m n) {j : ℕ} (hm : j < m) (hn : j < n)

/-- The part of column `j` that its reduction may change. -/
noncomputable def columnTail : Fin m → ℂ := tail j fun i => work.get i ⟨j, hn⟩

/-- The length of that part. -/
noncomputable def columnNorm : ℝ := √(tailNormSq j fun i => work.get i ⟨j, hn⟩)

/-- Whether column `j` counts as clear below row `j`. -/
def Skips : Prop := √(tailNormSq (j + 1) fun i => work.get i ⟨j, hn⟩) ≤ reducedRatio * columnNorm work hn

/-- The ratio under which a column counts as clear. -/
lemma reducedRatio_eq : (reducedRatio : ℝ) = 1e-14 := rfl

variable {work hn} in
/-- A column that counts as clear has only small entries below the diagonal. -/
lemma norm_le_of_skips (h : Skips work hn) {i : Fin m} (hi : j < i.val) :
    ‖work.toMatrix i ⟨j, hn⟩‖ ≤ reducedRatio * columnNorm work hn :=
  (norm_le_sqrt_tailNormSq (fun i => work.get i ⟨j, hn⟩) hi).trans h

/-- The entry that column `j` is reduced to. -/
noncomputable def reducedEntry : Amplitude ℝ :=
  columnNorm work hn • (-Amplitude.phase (work.get ⟨j, hm⟩ ⟨j, hn⟩).arg)

/-- Column `j` less the entry that it is reduced to. -/
noncomputable def columnMirror (i : Fin m) : Amplitude ℝ :=
  if i.val = j then work.get i ⟨j, hn⟩ - reducedEntry work hm hn else work.get i ⟨j, hn⟩

/-- The length of the mirror. -/
noncomputable def mirrorNorm : ℝ := √(tailNormSq j (columnMirror work hm hn))

/-- The reflector of column `j`. -/
noncomputable def columnReflector : Reflector ℝ m :=
  ⟨j, .ofFn (fromRow j fun i => (columnMirror work hm hn i).divReal (mirrorNorm work hm hn))⟩

/-- The norm of a column is not negative. -/
lemma columnNorm_nonneg : 0 ≤ columnNorm work hn := Real.sqrt_nonneg _

/-- The inner product of a column tail with itself is the square of the norm. -/
lemma star_columnTail_dotProduct : star (columnTail work hn) ⬝ᵥ columnTail work hn = (columnNorm work hn ^ 2 : ℝ) := by
  rw [columnTail, ← tailNormSq_eq, columnNorm, Real.sq_sqrt (tailNormSq_nonneg _ _)]

/-- The entry that a column is reduced to is the reflected entry of its tail. -/
lemma toComplex_reducedEntry :
    (reducedEntry work hm hn).toComplex = reflectedEntry (columnNorm work hn) (columnTail work hn ⟨j, hm⟩) := by
  have hentry : columnTail work hn ⟨j, hm⟩ = (work.get ⟨j, hm⟩ ⟨j, hn⟩).toComplex := tail_of_le _ (Nat.le_refl j)
  rw [hentry, reducedEntry, Amplitude.toComplex_smul, Amplitude.toComplex_neg, Amplitude.toComplex_phase, reflectedEntry,
    Amplitude.arg_eq, mul_neg]

/-- The mirror of a column is the mirror of its tail. -/
lemma tail_columnMirror :
    tail j (columnMirror work hm hn) = mirror (columnNorm work hn) ⟨j, hm⟩ (columnTail work hn) := by
  ext i
  rw [mirror, Pi.sub_apply, ← toComplex_reducedEntry, Pi.single_apply]
  rcases lt_trichotomy i.val j with hi | hi | hi
  · rw [tail_of_lt _ hi, columnTail, tail_of_lt _ hi, if_neg (by simp [Fin.ext_iff, hi.ne]), sub_zero]
  · rw [tail_of_le _ hi.ge, columnTail, tail_of_le _ hi.ge, if_pos (Fin.ext hi), columnMirror, if_pos hi,
      Amplitude.toComplex_sub]
  · rw [tail_of_le _ hi.le, columnTail, tail_of_le _ hi.le, if_neg (by simp [Fin.ext_iff, hi.ne']), sub_zero,
      columnMirror, if_neg hi.ne']

/-- The squared length of the mirror, by the column and its leading entry. -/
lemma mirrorNorm_sq : mirrorNorm work hm hn ^ 2 =
    2 * (columnNorm work hn ^ 2 + columnNorm work hn * ‖columnTail work hn ⟨j, hm⟩‖) := by
  have h := tailNormSq_eq j (columnMirror work hm hn)
  rw [tail_columnMirror, star_mirror_dotProduct_self _ (columnNorm_nonneg work hn) (star_columnTail_dotProduct work hn)] at h
  rw [mirrorNorm, Real.sq_sqrt (tailNormSq_nonneg _ _)]
  exact_mod_cast h

/-- The mirror is no shorter than the column, so that it can be normalized whenever the column passes. -/
lemma columnNorm_le_mirrorNorm : columnNorm work hn ≤ mirrorNorm work hm hn := by
  have hν := columnNorm_nonneg work hn
  have hcross : 0 ≤ columnNorm work hn * ‖columnTail work hn ⟨j, hm⟩‖ := mul_nonneg hν (norm_nonneg _)
  have hsq := mirrorNorm_sq work hm hn
  refine (sq_le_sq₀ hν (Real.sqrt_nonneg _)).1 ?_
  change columnNorm work hn ^ 2 ≤ mirrorNorm work hm hn ^ 2
  linarith [sq_nonneg (columnNorm work hn)]

/-- A reflector points along the normalized mirror of its column. -/
lemma direction_columnReflector : (columnReflector work hm hn).direction =
    (mirrorNorm work hm hn : ℂ)⁻¹ • mirror (columnNorm work hn) ⟨j, hm⟩ (columnTail work hn) := by
  rw [← tail_columnMirror]
  ext i
  rw [Reflector.direction, columnReflector, Vector.get_ofFn, Pi.smul_apply, tail, fromRow, fromRow]
  split
  · rw [Amplitude.toComplex_zero, smul_zero]
  · rw [Amplitude.toComplex_divReal, smul_eq_mul, div_eq_inv_mul]

/-- A reflector is zero where the column is. -/
lemma direction_columnReflector_eq_zero {i : Fin m} (hi : j < i.val) (hzero : work.toMatrix i ⟨j, hn⟩ = 0) :
    (columnReflector work hm hn).direction i = 0 := by
  have hentry : columnTail work hn i = 0 := (tail_of_le _ hi.le).trans hzero
  rw [direction_columnReflector, Pi.smul_apply, mirror, Pi.sub_apply, hentry, Pi.single_apply,
    if_neg fun h => hi.ne' (congrArg Fin.val h), sub_zero, smul_zero]

variable {work}

/-- A column that is too short is refused. -/
lemma reduceColumn_of_short (hnorm : columnNorm work hn < minColumnNorm) :
    Reducer.reduceColumn work j hm hn = .error (.overflow .householder j (columnNorm work hn)) := by
  have hcheck : checkNorm j (Scalar.sqrt (tailNormSq j fun i => work.get i ⟨j, hn⟩)) =
      .error (.overflow .householder j (columnNorm work hn)) := checkNorm_eq_error hnorm
  rw [Reducer.reduceColumn, hcheck]
  rfl

/-- A column that is long enough and counts as clear is cleared without a reflection. -/
lemma reduceColumn_of_skips (hnorm : minColumnNorm ≤ columnNorm work hn) (hskip : Skips work hn) :
    Reducer.reduceColumn work j hm hn = .ok (clearBelow j work, none) := by
  have hcheck : checkNorm j (Scalar.sqrt (tailNormSq j fun i => work.get i ⟨j, hn⟩)) = .ok () := checkNorm_eq_ok hnorm
  rw [Reducer.reduceColumn, hcheck]
  exact if_pos hskip

/-- Where a column is zero below the diagonal, clearing it changes nothing. -/
lemma toMatrix_clearBelow (hzero : ∀ i c, c.val = j → j < i.val → work.toMatrix i c = 0) :
    (clearBelow j work).toMatrix = work.toMatrix := by
  ext i c
  rw [clearBelow, Dense.toMatrix_ofFn, Matrix.of_apply]
  split
  case isTrue h => rw [hzero i c h.1 h.2, Amplitude.toComplex_zero]
  case isFalse => rfl

/-- A column that is long enough and does not count as clear is reflected. -/
lemma reduceColumn_of_not_skips (hnorm : minColumnNorm ≤ columnNorm work hn) (hskip : ¬ Skips work hn) :
    Reducer.reduceColumn work j hm hn =
      .ok (reflectFrom ⟨j, hn⟩ (columnReflector work hm hn).vector.get (reducedEntry work hm hn) work,
        some (columnReflector work hm hn)) := by
  have hcheck : checkNorm j (Scalar.sqrt (tailNormSq j fun i => work.get i ⟨j, hn⟩)) = .ok () := checkNorm_eq_ok hnorm
  have hlength : checkNorm j (Scalar.sqrt (tailNormSq j (columnMirror work hm hn))) = .ok () :=
    checkNorm_eq_ok (hnorm.trans (columnNorm_le_mirrorNorm work hm hn))
  rw [Reducer.reduceColumn, hcheck]
  refine (if_neg hskip).trans ?_
  change (checkNorm j (Scalar.sqrt (tailNormSq j (columnMirror work hm hn))) >>= fun _ => _) = _
  rw [hlength]
  rfl

variable {hm hn}

variable (hm) in
/-- The reflector of a column that is not zero clears it. -/
lemma clears_columnReflector (hpos : 0 < columnNorm work hn) : (columnReflector work hm hn).Clears j where
  column := rfl
  unit := by
    have hℓ : mirrorNorm work hm hn ≠ 0 := (hpos.trans_le (columnNorm_le_mirrorNorm work hm hn)).ne'
    rw [direction_columnReflector]
    exact star_smul_mirror_dotProduct_self _ (columnNorm_nonneg work hn) (star_columnTail_dotProduct work hn) hℓ
      (mirrorNorm_sq work hm hn)
  above i hi := by
    rw [Reflector.direction, columnReflector, Vector.get_ofFn, fromRow, if_pos hi, Amplitude.toComplex_zero]

variable (hm) in
/-- The matrix after a column is reduced is the reflection of the matrix before. -/
lemma toMatrix_reduced (hclear : ∀ i c, c.val < j → j ≤ i.val → work.toMatrix i c = 0) (hpos : 0 < columnNorm work hn) :
    (reflectFrom ⟨j, hn⟩ (columnReflector work hm hn).vector.get (reducedEntry work hm hn) work).toMatrix =
      reflection (columnReflector work hm hn).direction * work.toMatrix := by
  have hℓ : mirrorNorm work hm hn ≠ 0 := (hpos.trans_le (columnNorm_le_mirrorNorm work hm hn)).ne'
  have htail : tail j (columnReflector work hm hn).vector.get = (columnReflector work hm hn).direction := by
    ext i
    by_cases hi : i.val < j
    · rw [tail_of_lt _ hi, (clears_columnReflector hm hpos).above i hi]
    · rw [tail_of_le _ (not_lt.1 hi)]
      rfl
  rw [← htail]
  refine toMatrix_reflectFrom hm hn hclear ?_
  rw [htail, direction_columnReflector, toComplex_reducedEntry]
  exact reflection_mirror_mulVec _ (star_columnTail_dotProduct work hn) hℓ (mirrorNorm_sq work hm hn)

/-- Below row `j` a reduced column is zero. -/
lemma reduced_below {i : Fin m} (hi : j < i.val) :
    (reflectFrom ⟨j, hn⟩ (columnReflector work hm hn).vector.get (reducedEntry work hm hn) work).toMatrix i ⟨j, hn⟩ = 0 := by
  rw [reflectFrom, Dense.toMatrix_ofFn, Matrix.of_apply, if_neg (by simp [hi.le]), if_pos rfl, if_neg hi.ne',
    Amplitude.toComplex_zero]

end Reduce

end Householder

end CircuitSynthesis
