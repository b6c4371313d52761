import Mathlib
import CircuitSynthesis.Proofs.Householder.Traces

/-!
# Steps of a reduction

`Reduced A j` is what `j` steps make of a unitary matrix: it is unitary, and its first `j` columns are zero off the
diagonal. Then so are its first rows, so that the next column has length one from its row on and the next step succeeds.
By induction no step fails (`Reducer.steps_run`), and the trace of the steps writes the matrix as a product of reflections
and what is left of it.
-/

namespace CircuitSynthesis

open Matrix

namespace Householder

section Unitary

variable {N : ℕ} {A : Matrix (Fin N) (Fin N) ℂ} {j : ℕ}

/-- A unitary matrix whose first `j` columns are zero off the diagonal. -/
structure Reduced (A : Matrix (Fin N) (Fin N) ℂ) (j : ℕ) : Prop where
  unitary : A ∈ unitaryGroup (Fin N) ℂ
  column : ∀ i c, c.val < j → i ≠ c → A i c = 0

/-- The rows of a unitary matrix are unit vectors. -/
lemma sum_normSq_row (hA : A ∈ unitaryGroup (Fin N) ℂ) (r : Fin N) : ∑ c, Complex.normSq (A r c) = 1 := by
  have h := congrFun (congrFun (mem_unitaryGroup_iff.1 hA) r) r
  rw [star_eq_conjTranspose, Matrix.mul_apply, one_apply_eq] at h
  simp only [conjTranspose_apply, Complex.star_def, Complex.mul_conj] at h
  exact_mod_cast h

/-- The columns of a unitary matrix are unit vectors. -/
lemma sum_normSq_column (hA : A ∈ unitaryGroup (Fin N) ℂ) (c : Fin N) : ∑ r, Complex.normSq (A r c) = 1 := by
  have h := congrFun (congrFun (mem_unitaryGroup_iff'.1 hA) c) c
  rw [star_eq_conjTranspose, Matrix.mul_apply, one_apply_eq] at h
  simp only [conjTranspose_apply, Complex.star_def, ← Complex.normSq_eq_conj_mul_self] at h
  exact_mod_cast h

namespace Reduced

variable (h : Reduced A j)

include h

/-- The entry of a clear column on the diagonal has modulus one. -/
lemma normSq_diagonal {c : Fin N} (hc : c.val < j) : Complex.normSq (A c c) = 1 := by
  rw [← sum_normSq_column h.unitary c, Finset.sum_eq_single c]
  · intro r _ hr
    rw [h.column r c hc hr, map_zero]
  · exact fun hc' => absurd (Finset.mem_univ c) hc'

/-- Where a column is clear, so is the row. -/
lemma row {r c : Fin N} (hr : r.val < j) (hc : c ≠ r) : A r c = 0 := by
  have hsum := sum_normSq_row h.unitary r
  rw [← Finset.add_sum_erase _ _ (Finset.mem_univ r), h.normSq_diagonal hr, add_eq_left,
    Finset.sum_eq_zero_iff_of_nonneg fun _ _ => Complex.normSq_nonneg _] at hsum
  exact Complex.normSq_eq_zero.1 (hsum c (Finset.mem_erase.2 ⟨hc, Finset.mem_univ c⟩))

/-- If the next column is zero below the diagonal, it is reduced as well. -/
lemma skip (hnext : ∀ i c, c.val = j → j < i.val → A i c = 0) : Reduced A (j + 1) where
  unitary := h.unitary
  column i c hc hi := by
    rcases Nat.lt_succ_iff_lt_or_eq.1 hc with hc | hc
    · exact h.column i c hc hi
    · rcases lt_trichotomy i.val j with hij | hij | hij
      · exact h.row hij hi.symm
      · exact absurd (Fin.ext (hij.trans hc.symm)) hi
      · exact hnext i c hc hij

/-- A reflection of the later rows leaves the earlier columns as they are. -/
lemma reflect {u : Fin N → ℂ} (hu : star u ⬝ᵥ u = 1) (habove : ∀ i, i.val < j → u i = 0) :
    Reduced (reflection u * A) j where
  unitary := mul_mem (reflection_mem_unitary hu) h.unitary
  column i c hc hi := by
    have hinner : (star u ⬝ᵥ fun k => A k c) = 0 := by
      refine Finset.sum_eq_zero fun k _ => ?_
      by_cases hk : k = c
      · rw [Pi.star_apply, habove k (hk ▸ hc), star_zero, zero_mul]
      · exact mul_eq_zero_of_right _ (h.column k c hc hk)
    rw [reflection_mul_apply, hinner, mul_zero, sub_zero, h.column i c hc hi]

end Reduced

/-- Unit vectors are long enough to be normalized. -/
lemma minColumnNorm_le_one : (minColumnNorm : ℝ) ≤ 1 := by
  rw [minColumnNorm_eq]
  exact inv_le_one_of_one_le₀ (one_le_pow₀ (by norm_num))

/-- The next column of a partly reduced matrix has length one from its row on. -/
lemma Reduced.columnNorm_eq_one {work : Dense (Amplitude ℝ) N N} (h : Reduced work.toMatrix j) (hj : j < N) :
    columnNorm work hj = 1 := by
  have htail : columnTail work hj = fun i => work.toMatrix i ⟨j, hj⟩ := by
    ext i
    by_cases hi : i.val < j
    · rw [columnTail, tail_of_lt _ hi, h.row hi (Fin.ne_of_gt hi)]
    · exact tail_of_le _ (not_lt.1 hi)
  have hsq : columnNorm work hj ^ 2 = 1 := by
    have hunit := star_columnTail_dotProduct work hj
    have hsum := sum_normSq_column h.unitary ⟨j, hj⟩
    rw [htail, dotProduct] at hunit
    simp only [Pi.star_apply, Complex.star_def, ← Complex.normSq_eq_conj_mul_self] at hunit
    rw [← hsum]
    exact_mod_cast hunit.symm
  exact (pow_eq_one_iff_of_nonneg (columnNorm_nonneg work hj) two_ne_zero).1 hsq

/-- The next column of a reduced unitary matrix is long enough to be normalized. -/
lemma Reduced.minColumnNorm_le {work : Dense (Amplitude ℝ) N N} (h : Reduced work.toMatrix j) (hj : j < N) :
    minColumnNorm ≤ columnNorm work hj :=
  (h.columnNorm_eq_one hj).symm ▸ minColumnNorm_le_one

/-- A matrix reduced up to a column is reduced up to every earlier one. -/
lemma Reduced.mono {k : ℕ} (h : Reduced A j) (hk : k ≤ j) : Reduced A k := ⟨h.unitary, fun i c hc => h.column i c (by omega)⟩

/-- A reduced column counts as clear. -/
lemma Reduced.skips {work : Dense (Amplitude ℝ) N N} (h : Reduced work.toMatrix j) {k : ℕ} (hk : k < N) (hj : k < j) :
    Skips work hk := by
  have htail : tail (k + 1) (fun i => work.get i ⟨k, hk⟩) = 0 := by
    ext i
    by_cases hi : i.val < k + 1
    · rw [tail_of_lt _ hi, Pi.zero_apply]
    · rw [tail_of_le _ (not_lt.1 hi)]
      exact h.column i ⟨k, hk⟩ hj fun heq => hi (by rw [heq]; exact Nat.lt_succ_self k)
  have hzero : (tailNormSq (k + 1) fun i => work.get i ⟨k, hk⟩ : ℝ) = 0 := by
    have hsum := tailNormSq_eq (k + 1) fun i => work.get i ⟨k, hk⟩
    rw [htail, dotProduct_zero] at hsum
    exact_mod_cast hsum
  rw [Skips, hzero, Real.sqrt_zero]
  exact mul_nonneg (by rw [reducedRatio_eq]; norm_num) (columnNorm_nonneg work hk)

end Unitary

section Steps

variable {N : ℕ}

namespace Reducer

variable {q : Reducer ℝ N N}

/-- A reducer of a reduced matrix has cleared the columns it is done with. -/
lemma isCleared_of_reduced (hq : Reduced q.work.toMatrix q.next) : q.IsCleared := fun i c hc hi =>
  hq.column i c hc fun h => hi.ne (congrArg Fin.val h).symm

/-- A step reduces one more column of a unitary matrix: it reflects the matrix, or finds the column clear. -/
lemma step_run (hq : Reduced q.work.toMatrix q.next) (hnext : q.next < N)
    (hskip : (step.run q).run.1 = .ok none → ∀ i c, c.val = q.next → q.next < i.val → q.work.toMatrix i c = 0) :
    ∃ (r : Option (Reflector ℝ N)) (next : Dense (Amplitude ℝ) N N), (step.run q).run = (.ok r, ⟨next, q.next + 1⟩) ∧
      Reduced next.toMatrix (q.next + 1) := by
  have hlong := hq.minColumnNorm_le hnext
  by_cases hs : Skips q.work hnext
  · have hrun := step_of_skips hnext hnext hlong hs
    have hzero := hskip (congrArg Prod.fst hrun)
    have hkeep : (clearBelow q.next q.work).toMatrix = q.work.toMatrix := toMatrix_clearBelow hzero
    exact ⟨none, _, hrun, hkeep ▸ hq.skip hzero⟩
  · have hreflector : (columnReflector q.work hnext hnext).Clears q.next :=
      clears_columnReflector hnext (minColumnNorm_pos.trans_le hlong)
    have hmatrix := (isCleared_of_reduced hq).toMatrix_reflected hnext hnext hlong
    refine ⟨_, _, step_of_not_skips hnext hnext hlong hs, ?_⟩
    change Reduced (q.reflected hnext hnext).work.toMatrix (q.next + 1)
    rw [hmatrix]
    refine (hq.reflect hreflector.unit hreflector.above).skip fun i c hc hi => ?_
    obtain rfl : c = ⟨q.next, hnext⟩ := Fin.ext hc
    rw [← hmatrix]
    exact reduced_below hi

/-- On a unitary matrix no step fails, and each reduces one more column. -/
lemma steps_run (count : ℕ) (hq : Reduced q.work.toMatrix q.next) (hcount : q.next + count ≤ N)
    (hskip : SkipsExactly count q) :
    ∃ (rs : List (Option (Reflector ℝ N))) (next : Dense (Amplitude ℝ) N N),
      ((steps count).run q).run = (.ok rs, ⟨next, q.next + count⟩) ∧ Reduced next.toMatrix (q.next + count) := by
  induction count generalizing q with
  | zero => exact ⟨[], q.work, rfl, hq⟩
  | succ count ih =>
    obtain ⟨r, next, hrun, hnext⟩ := step_run hq (by omega) hskip.1
    have hrest : SkipsExactly count ⟨next, q.next + 1⟩ := by
      have h := hskip.2
      rwa [hrun] at h
    have hadd : q.next + 1 + count = q.next + (count + 1) := by omega
    obtain ⟨rs, last, hruns, hlast⟩ := ih hnext (hadd ▸ hcount) hrest
    refine ⟨r :: rs, last, ?_, hadd ▸ hlast⟩
    rw [steps, run_bind hrun, run_bind hruns]
    simp only [hadd]
    rfl

/-- Steps from the start write a unitary matrix as the product of their reflections and a matrix of which the first columns
are reduced. -/
lemma steps_run_ofDense {A : Dense (Amplitude ℝ) N N} (hA : A.toMatrix ∈ unitaryGroup (Fin N) ℂ) {count : ℕ}
    (hcount : count ≤ N) (hskip : SkipsExactly count (ofDense A)) :
    ∃ (rs : List (Option (Reflector ℝ N))) (next : Dense (Amplitude ℝ) N N),
      ((steps count).run (ofDense A)).run = (.ok rs, ⟨next, count⟩) ∧ Reduced next.toMatrix count ∧ rs.length = count ∧
      (∀ k (r : Reflector ℝ N), rs[k]? = some (some r) → r.Clears k) ∧ A.toMatrix = reflections (directions rs) * next.toMatrix := by
  have hstart : Reduced (ofDense A).work.toMatrix (ofDense A).next := ⟨hA, fun _ _ h => absurd h (Nat.not_lt_zero _)⟩
  have hzero (k : ℕ) : (ofDense A).next + k = k := Nat.zero_add k
  obtain ⟨rs, next, hrun, hnext⟩ := steps_run count hstart ((hzero count).trans_le hcount) hskip
  rw [hzero] at hrun hnext
  obtain ⟨htrace, hlength⟩ := trace_of_steps hrun
  exact ⟨rs, next, hrun, hnext, hlength, fun k r hr => hzero k ▸ htrace.clears hr,
    htrace.eq_mul (isCleared_ofDense A) (hlength.symm ▸ hskip)⟩

/-- Columns that are clear already are skipped exactly, and the matrix stays as it is. -/
lemma steps_of_reduced (count : ℕ) {q : Reducer ℝ N N} (hq : Reduced q.work.toMatrix (q.next + count))
    (hcount : q.next + count ≤ N) :
    SkipsExactly count q ∧ ∃ next : Dense (Amplitude ℝ) N N,
      ((steps count).run q).run = (.ok (List.replicate count none), ⟨next, q.next + count⟩) ∧
      next.toMatrix = q.work.toMatrix := by
  induction count generalizing q with
  | zero => exact ⟨trivial, q.work, rfl, rfl⟩
  | succ count ih =>
    have hnext : q.next < N := by omega
    have hadd : q.next + 1 + count = q.next + (count + 1) := by omega
    have hzero : ∀ i c, c.val = q.next → q.next < i.val → q.work.toMatrix i c = 0 := fun i c hc hi =>
      hq.column i c (by omega) fun h => by omega
    have hlong := (hq.mono (Nat.le_add_right q.next (count + 1))).minColumnNorm_le hnext
    have hrun := step_eq hnext hnext (reduceColumn_of_skips hnext hnext hlong (hq.skips hnext (by omega)))
    have hclear := toMatrix_clearBelow hzero
    obtain ⟨hskip, next, hruns, hwork⟩ := ih (q := ⟨clearBelow q.next q.work, q.next + 1⟩)
      (by rw [hclear, hadd]; exact hq) (hadd ▸ hcount)
    refine ⟨⟨fun _ => hzero, ?_⟩, next, ?_, hwork.trans hclear⟩
    · rw [hrun]
      exact hskip
    · rw [steps, run_bind hrun, run_bind hruns]
      simp only [hadd]
      rfl

end Reducer

end Steps

end Householder

end CircuitSynthesis
