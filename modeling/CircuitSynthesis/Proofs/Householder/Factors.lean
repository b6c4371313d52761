import Mathlib
import CircuitSynthesis.Householder.Factors
import CircuitSynthesis.Proofs.Householder.Splitting

/-!
# Factors of a matrix

A reduction that runs to its end leaves an upper triangular matrix, and stores the reflections below its diagonal, their
heads scaled to one. Rebuilding them from storage gives the same reflections (`QrFactors.Packs.toMatrix_unitary`), so that
the factors multiply up to the matrix but for what was dropped of the columns that counted as clear: in every column at most
the share by which a column counts as clear (`qr_spec`).
-/

namespace CircuitSynthesis

open Matrix
open Complex (I)

namespace Householder

section Length

variable {m n : ℕ} {M M' L L' : Matrix (Fin m) (Fin n) ℂ} {c : Fin n}

/-- The Euclidean length of a column. -/
noncomputable def columnLength (M : Matrix (Fin m) (Fin n) ℂ) (c : Fin n) : ℝ := ‖WithLp.toLp 2 (M.col c)‖

/-- The length of a column is not negative. -/
lemma columnLength_nonneg (M : Matrix (Fin m) (Fin n) ℂ) (c : Fin n) : 0 ≤ columnLength M c := norm_nonneg _

/-- The squared length of a column sums the squared moduli of its entries. -/
lemma columnLength_sq (M : Matrix (Fin m) (Fin n) ℂ) (c : Fin n) : columnLength M c ^ 2 = ∑ i, Complex.normSq (M i c) := by
  rw [columnLength, EuclideanSpace.norm_sq_eq]
  simp only [Complex.normSq_eq_norm_sq, col_apply]

/-- The length of a column only depends on the column. -/
lemma columnLength_congr (hM : M.col c = M'.col c) : columnLength M c = columnLength M' c := by
  rw [columnLength, columnLength, hM]

/-- The distance of two matrices in a column only depends on that column of each. -/
lemma columnLength_sub_congr (hM : M.col c = M'.col c) (hL : L.col c = L'.col c) :
    columnLength (M - L) c = columnLength (M' - L') c := by
  refine columnLength_congr ?_
  ext i
  exact congrArg₂ (· - ·) (congrFun hM i) (congrFun hL i)

/-- Unitary matrices keep the lengths of columns. -/
lemma columnLength_mul {U : Matrix (Fin m) (Fin m) ℂ} (hU : U ∈ unitaryGroup (Fin m) ℂ) (M : Matrix (Fin m) (Fin n) ℂ)
    (c : Fin n) : columnLength (U * M) c = columnLength M c := by
  have hgram (X : Matrix (Fin m) (Fin n) ℂ) : ((columnLength X c ^ 2 : ℝ) : ℂ) = (Xᴴ * X) c c := by
    rw [columnLength_sq, Complex.ofReal_sum, Matrix.mul_apply]
    exact Finset.sum_congr rfl fun i _ => Complex.normSq_eq_conj_mul_self
  have hkeep : (U * M)ᴴ * (U * M) = Mᴴ * M := by
    rw [conjTranspose_mul, Matrix.mul_assoc, ← Matrix.mul_assoc Uᴴ, ← star_eq_conjTranspose U, mem_unitaryGroup_iff'.1 hU,
      Matrix.one_mul]
  have hsq : columnLength (U * M) c ^ 2 = columnLength M c ^ 2 := by
    rw [← Complex.ofReal_inj, hgram, hgram, hkeep]
  exact (sq_eq_sq₀ (columnLength_nonneg _ c) (columnLength_nonneg _ c)).1 hsq

end Length

section Truncation

variable {m n : ℕ} {q last : Reducer ℝ m n} {rs : List (Option (Reflector ℝ m))}

/-- The part of a column that is reduced is no longer than the column. -/
lemma columnNorm_le_columnLength (work : Dense (Amplitude ℝ) m n) {j : ℕ} (hn : j < n) :
    columnNorm work hn ≤ columnLength work.toMatrix ⟨j, hn⟩ := by
  refine Real.sqrt_le_iff.2 ⟨columnLength_nonneg _ _, ?_⟩
  rw [columnLength_sq, tailNormSq, Scalar.sumFin_real]
  refine Finset.sum_le_sum fun i _ => ?_
  split
  · exact Complex.normSq_nonneg _
  · exact le_rfl

namespace Reducer

/-- What is dropped of a column that counts as clear is a small share of it. -/
lemma columnLength_sub_skipped_le {hn : q.next < n} (hskip : Skips q.work hn) :
    columnLength (q.work.toMatrix - q.skipped.work.toMatrix) ⟨q.next, hn⟩ ≤
      reducedRatio * columnLength q.work.toMatrix ⟨q.next, hn⟩ := by
  have hdropped : columnLength (q.work.toMatrix - q.skipped.work.toMatrix) ⟨q.next, hn⟩ =
      √(tailNormSq (q.next + 1) fun i => q.work.get i ⟨q.next, hn⟩) := by
    refine (Real.sqrt_eq_iff_eq_sq (tailNormSq_nonneg _ _) (columnLength_nonneg _ _)).2 ?_ |>.symm
    rw [columnLength_sq, tailNormSq, Scalar.sumFin_real]
    refine Finset.sum_congr rfl fun i _ => ?_
    rw [Matrix.sub_apply, toMatrix_skipped]
    rcases lt_or_ge q.next i.val with hi | hi
    · rw [if_neg (by omega), if_pos ⟨rfl, hi⟩, sub_zero]
      rfl
    · rw [if_pos (by omega), if_neg fun h => by omega, sub_self, map_zero]
  have hratio : (0 : ℝ) ≤ reducedRatio := by
    rw [reducedRatio_eq]
    norm_num
  calc columnLength (q.work.toMatrix - q.skipped.work.toMatrix) ⟨q.next, hn⟩
      = √(tailNormSq (q.next + 1) fun i => q.work.get i ⟨q.next, hn⟩) := hdropped
    _ ≤ reducedRatio * columnNorm q.work hn := hskip
    _ ≤ reducedRatio * columnLength q.work.toMatrix ⟨q.next, hn⟩ :=
        mul_le_mul_of_nonneg_left (columnNorm_le_columnLength q.work hn) hratio

/-- The reflections take every column of the last matrix back to the first, but for a small share of it. A column is
dropped from once at most, when its turn comes; from then on it stays as it is. -/
lemma Trace.columnLength_sub_le (h : Trace q rs last) (hq : q.IsCleared) (c : Fin n) :
    columnLength (q.work.toMatrix - reflections (directions rs) * last.work.toMatrix) c ≤
      reducedRatio * columnLength q.work.toMatrix c := by
  induction h with
  | stop q =>
    have hzero : columnLength (q.work.toMatrix - q.work.toMatrix) c = 0 := by
      rw [sub_self, columnLength, EuclideanSpace.norm_eq]
      simp
    rw [directions_nil, reflections_nil, Matrix.one_mul, hzero]
    exact mul_nonneg (by rw [reducedRatio_eq]; norm_num) (columnLength_nonneg _ _)
  | @skip q last rs hm hn hlong hskip rest ih =>
    rw [directions_none_cons]
    by_cases hc : c.val = q.next
    · -- its turn has come: the rest of the trace takes the column back to what is left of it now
      obtain rfl : c = ⟨q.next, hn⟩ := Fin.ext hc
      rw [columnLength_sub_congr rfl (rest.col_eq_of_lt hq.skipped (Nat.lt_succ_self _))]
      exact columnLength_sub_skipped_le hskip
    · have hkeep : q.work.toMatrix.col c = q.skipped.work.toMatrix.col c := by
        ext i
        rw [col_apply, col_apply, toMatrix_skipped, if_neg fun h => hc h.1]
      rw [columnLength_sub_congr hkeep rfl, columnLength_congr hkeep]
      exact ih hq.skipped
  | @reflect q last rs hm hn hlong hskip rest ih =>
    -- a reflection keeps all lengths and is its own inverse
    have hunit := (clears_columnReflector hm (minColumnNorm_pos.trans_le hlong)).unit
    have hunitary := reflection_mem_unitary hunit
    have hih := ih (hq.reflected hm hn)
    rw [hq.toMatrix_reflected hm hn hlong, columnLength_mul hunitary] at hih
    rw [directions_some_cons, reflections_cons, ← columnLength_mul hunitary, Matrix.mul_sub, ← Matrix.mul_assoc,
      ← Matrix.mul_assoc, reflection_mul_self hunit, Matrix.one_mul]
    exact hih

end Reducer

end Truncation

section Scale

/-- The scale of a reflection, by the leading entry of its direction. -/
lemma reflectionScale_some {m j : ℕ} {r : Reflector ℝ m} (hr : r.column = j) (hm : j < m) :
    reflectionScale (some r) = 2 * ‖r.direction ⟨j, hm⟩‖ ^ 2 := by
  subst hr
  refine (dif_pos hm).trans ?_
  rw [Scalar.two_real, Amplitude.normSq_eq_norm_sq]
  rfl

variable {m n : ℕ} {work : Dense (Amplitude ℝ) m n} {j : ℕ} (hm : j < m) {hn : j < n}

/-- The head of a mirror is as long as the entry and the vector together. -/
lemma norm_mirror_apply {ι : Type} [DecidableEq ι] {ν : ℝ} (hν : 0 ≤ ν) (j : ι) (y : ι → ℂ) :
    ‖mirror ν j y j‖ = ν + ‖y j‖ := by
  have hentry : mirror ν j y j = ((ν + ‖y j‖ : ℝ) : ℂ) * Complex.exp ((y j).arg * I) := by
    rw [mirror, Pi.sub_apply, Pi.single_eq_same, reflectedEntry]
    nth_rewrite 1 [← Complex.norm_mul_exp_arg_mul_I (y j)]
    push_cast
    ring
  rw [hentry, norm_mul, Complex.norm_exp_ofReal_mul_I, mul_one, Complex.norm_real, Real.norm_of_nonneg]
  exact add_nonneg hν (norm_nonneg _)

/-- A reflector's scale grows from one with the share of the entry on the diagonal. -/
lemma reflectionScale_columnReflector (hpos : 0 < columnNorm work hn) :
    reflectionScale (some (columnReflector work hm hn)) = 1 + ‖columnTail work hn ⟨j, hm⟩‖ / columnNorm work hn := by
  have hℓ : mirrorNorm work hm hn ≠ 0 := (hpos.trans_le (columnNorm_le_mirrorNorm work hm hn)).ne'
  have hν : columnNorm work hn + ‖columnTail work hn ⟨j, hm⟩‖ ≠ 0 := (add_pos_of_pos_of_nonneg hpos (norm_nonneg _)).ne'
  have hsq : mirrorNorm work hm hn ^ 2 =
      2 * (columnNorm work hn * (columnNorm work hn + ‖columnTail work hn ⟨j, hm⟩‖)) := by
    rw [mirrorNorm_sq]
    ring
  rw [reflectionScale_some (clears_columnReflector hm hpos).column hm, direction_columnReflector, Pi.smul_apply, smul_eq_mul,
    norm_mul, norm_mirror_apply hpos.le, norm_inv, Complex.norm_real, mul_pow, inv_pow, Real.norm_eq_abs, sq_abs, hsq]
  field_simp

/-- A column that does not count as clear is longer than its entry on the diagonal. -/
lemma norm_columnTail_lt (hskip : ¬Skips work hn) : ‖columnTail work hn ⟨j, hm⟩‖ < columnNorm work hn := by
  have hbelow : 0 < (tailNormSq (j + 1) fun i => work.get i ⟨j, hn⟩ : ℝ) := by
    refine Real.sqrt_pos.1 (lt_of_le_of_lt ?_ (not_le.1 hskip))
    exact mul_nonneg (by rw [reducedRatio_eq]; norm_num) (columnNorm_nonneg work hn)
  have hsplit : (tailNormSq j fun i => work.get i ⟨j, hn⟩ : ℝ) =
      ‖columnTail work hn ⟨j, hm⟩‖ ^ 2 + tailNormSq (j + 1) fun i => work.get i ⟨j, hn⟩ := by
    have hentry : columnTail work hn ⟨j, hm⟩ = (work.get ⟨j, hm⟩ ⟨j, hn⟩).toComplex := tail_of_le _ (Nat.le_refl j)
    rw [tailNormSq, tailNormSq, Scalar.sumFin_real, Scalar.sumFin_real, ← Finset.add_sum_erase _ _ (Finset.mem_univ ⟨j, hm⟩),
      ← Finset.add_sum_erase Finset.univ (fun i : Fin m => if i.val < j + 1 then 0 else _) (Finset.mem_univ ⟨j, hm⟩),
      if_neg (lt_irrefl j), if_pos (Nat.lt_succ_self j), zero_add, hentry, Amplitude.normSq_eq_norm_sq]
    congr 1
    refine Finset.sum_congr rfl fun i hi => ?_
    have hne : i.val ≠ j := fun h => Finset.ne_of_mem_erase hi (Fin.ext h)
    simp only [show i.val < j ↔ i.val < j + 1 by omega]
  rw [columnNorm, Real.lt_sqrt (norm_nonneg _), hsplit]
  exact lt_add_of_pos_right _ hbelow

/-- The scales of the reflectors that a reduction returns. -/
lemma Reducer.Trace.reflectionScale_bounds {q last : Reducer ℝ m n} {rs : List (Option (Reflector ℝ m))}
    (h : q.Trace rs last) {k : ℕ} {r : Reflector ℝ m} (hr : rs[k]? = some (some r)) :
    1 ≤ reflectionScale (some r) ∧ reflectionScale (some r) < 2 := by
  obtain ⟨work, hm, hn, hlong, hskip, rfl⟩ := h.exists_columnReflector hr
  have hpos : 0 < columnNorm work hn := minColumnNorm_pos.trans_le hlong
  have hshare : ‖columnTail work hn ⟨q.next + k, hm⟩‖ / columnNorm work hn < 1 :=
    (div_lt_one hpos).2 (norm_columnTail_lt hm hskip)
  rw [reflectionScale_columnReflector hm hpos]
  constructor
  · linarith [div_nonneg (norm_nonneg (columnTail work hn ⟨q.next + k, hm⟩)) hpos.le]
  · linarith

end Scale

section Packing

variable {m n : ℕ}

/-- A reflection along a vector whose head is scaled to one. -/
lemma one_sub_smul_vecMulVec {u : Fin m → ℂ} {z : ℂ} (hz : z ≠ 0) :
    1 - (2 * ‖z‖ ^ 2 : ℂ) • vecMulVec (fun i => u i / z) (star fun i => u i / z) = reflection u := by
  have hnorm : star z * z = ‖z‖ ^ 2 := Complex.conj_mul' z
  have hstar : star z ≠ 0 := star_ne_zero.2 hz
  rw [reflection]
  congr 1
  ext i j
  rw [Matrix.smul_apply, Matrix.smul_apply, vecMulVec_apply, vecMulVec_apply, Pi.star_apply, Pi.star_apply, star_div₀,
    smul_eq_mul, smul_eq_mul, ← hnorm]
  field_simp

namespace QrFactors

/-- Whether factors store what a reduction returned and left. -/
structure Packs (f : QrFactors ℝ m n) (rs : List (Option (Reflector ℝ m))) (work : Dense (Amplitude ℝ) m n) : Prop where
  tau : f.tau = rs.map reflectionScale
  /-- On and above the diagonal is what was left. -/
  upper : ∀ (i : Fin m) (j : Fin n), i.val ≤ j.val → f.packed.get i j = work.get i j
  /-- Below the diagonal are the vectors, divided by their heads. -/
  lower : ∀ (i : Fin m) (j : Fin n) (hij : j.val < i.val) (r : Reflector ℝ m), rs[j.val]? = some (some r) →
    f.packed.get i j = r.vector.get i / r.vector.get ⟨j, hij.trans i.isLt⟩

/-- The factors of a matrix store a reduction that ran to its end. -/
lemma packs_of_qr {a : Dense (Amplitude ℝ) m n} {f : QrFactors ℝ m n} (h : qr a = .ok f) :
    ∃ (rs : List (Option (Reflector ℝ m))) (last : Reducer ℝ m n),
      ((Reducer.steps (min m n)).run (Reducer.ofDense a)).run = (.ok rs, last) ∧ f.Packs rs last.work := by
  unfold qr at h
  cases hrun : ((Reducer.steps (min m n)).run (Reducer.ofDense a)).run with
  | mk result last =>
    rw [hrun] at h
    cases result with
    | error e => cases h
    | ok rs =>
      obtain rfl := Except.ok.inj h
      refine ⟨rs, last, rfl, rfl, fun i j hij => ?_, fun i j hij r hr => ?_⟩
      · rw [Dense.get_ofFn, if_neg (not_lt.2 hij)]
      · have hj : j.val < m := hij.trans i.isLt
        rw [Dense.get_ofFn, if_pos hij]
        simp [hr, hj]
        rfl

/-- Where the reduction runs through, factors are returned. -/
lemma exists_qr_eq_ok {a : Dense (Amplitude ℝ) m n} {rs : List (Option (Reflector ℝ m))} {last : Reducer ℝ m n}
    (h : ((Reducer.steps (min m n)).run (Reducer.ofDense a)).run = (.ok rs, last)) : ∃ f, qr a = .ok f := by
  rw [qr, h]
  exact ⟨_, rfl⟩

/-- The triangular factor: what is stored on and above the diagonal. -/
noncomputable def triangle (f : QrFactors ℝ m n) : Matrix (Fin m) (Fin n) ℂ :=
  Matrix.of fun i j => if i.val ≤ j.val then f.packed.toMatrix i j else 0

/-- The vector of reflection `j`, as it is stored. -/
noncomputable def storedVector (f : QrFactors ℝ m n) (j : ℕ) (i : Fin m) : ℂ := (f.vector j i).toComplex

/-- Multiplying by a stored reflection is a matrix product with a reflection along the stored vector. -/
lemma toMatrix_reflect (f : QrFactors ℝ m n) (j : ℕ) (tau : ℝ) (q : Dense (Amplitude ℝ) m m) :
    (f.reflect j tau q).toMatrix =
      (1 - (tau : ℂ) • vecMulVec (f.storedVector j) (star (f.storedVector j))) * q.toMatrix := by
  rw [reflect, Scalar.beq_real]
  by_cases htau : tau = 0
  · rw [if_pos (by simpa using htau), htau, Complex.ofReal_zero, zero_smul, sub_zero, Matrix.one_mul]
  · rw [if_neg (by simpa using htau), Matrix.sub_mul, Matrix.one_mul, Matrix.smul_mul, vecMulVec_mul]
    ext r c
    rw [Dense.toMatrix_ofFn, Matrix.of_apply, Amplitude.toComplex_sub, Amplitude.toComplex_mul, Amplitude.toComplex_smul,
      Vector.get_ofFn, Amplitude.toComplex_sumFin, Matrix.sub_apply, Matrix.smul_apply, vecMulVec_apply, smul_eq_mul, mul_assoc]
    simp only [Amplitude.toComplex_mul, Amplitude.toComplex_conj]
    rfl

namespace Packs

variable {a : Dense (Amplitude ℝ) m n} {f : QrFactors ℝ m n} {rs : List (Option (Reflector ℝ m))} {last : Reducer ℝ m n}

/-- The stored upper triangle is the reduced matrix, once that has been cleared below the diagonal. -/
lemma triangle_eq {work : Dense (Amplitude ℝ) m n} (hf : f.Packs rs work)
    (hclear : ∀ i c, c.val < i.val → work.toMatrix i c = 0) : f.triangle = work.toMatrix := by
  ext i j
  rw [triangle, Matrix.of_apply]
  split
  · next hij => exact congrArg Amplitude.toComplex (hf.upper i j hij)
  · next hij => exact (hclear i j (not_le.1 hij)).symm

/-- A stored vector is that of the reflector, divided by its head. -/
lemma storedVector_eq {work : Dense (Amplitude ℝ) m n} (hf : f.Packs rs work) {k : ℕ} (hm : k < m) (hn : k < n)
    {r : Reflector ℝ m} (hr : rs[k]? = some (some r)) (hclears : r.Clears k) (hhead : r.direction ⟨k, hm⟩ ≠ 0) :
    f.storedVector k = fun i => r.direction i / r.direction ⟨k, hm⟩ := by
  ext i
  rw [storedVector, vector]
  rcases lt_trichotomy i.val k with hi | hi | hi
  · rw [if_pos hi, Amplitude.toComplex_zero, hclears.above i hi, zero_div]
  · obtain rfl : i = ⟨k, hm⟩ := Fin.ext hi
    rw [if_neg (lt_irrefl k), if_pos rfl, Amplitude.toComplex_one, div_self hhead]
  · rw [if_neg hi.not_gt, if_neg hi.ne', dif_pos hn, hf.lower i ⟨k, hn⟩ hi r hr, Amplitude.toComplex_div]
    rfl

/-- A stored vector and its scale stand for the reflection that the reduction made. -/
lemma reflection_eq (hf : f.Packs rs last.work) (h : (Reducer.ofDense a).Trace rs last) {k : ℕ} {r : Option (Reflector ℝ m)}
    (hr : rs[k]? = some r) : 1 - ((reflectionScale r : ℝ) : ℂ) • vecMulVec (f.storedVector k) (star (f.storedVector k)) =
      reflections (directions [r]) := by
  cases r with
  | none => rw [reflectionScale, Complex.ofReal_zero, zero_smul, sub_zero, directions_none_cons, directions_nil, reflections_nil]
  | some r =>
    have hzero : (Reducer.ofDense a).next + k = k := Nat.zero_add k
    obtain ⟨-, hm, hn, -⟩ := h.exists_columnReflector hr
    rw [hzero] at hm hn
    have hclears : r.Clears k := hzero ▸ h.clears hr
    have hscale := reflectionScale_some hclears.column hm
    have hhead : r.direction ⟨k, hm⟩ ≠ 0 := by
      intro hhead
      have hone := (h.reflectionScale_bounds hr).1
      rw [hscale, hhead, norm_zero] at hone
      norm_num at hone
    rw [hf.storedVector_eq hm hn hr hclears hhead, hscale]
    push_cast
    rw [one_sub_smul_vecMulVec hhead, directions_some_cons, reflections_cons, directions_nil, reflections_nil, Matrix.mul_one]

/-- Rebuilding the reflections from storage multiplies those that the reduction made. -/
lemma toMatrix_unitary (hf : f.Packs rs last.work) (h : (Reducer.ofDense a).Trace rs last) :
    f.unitary.toMatrix = reflections (directions rs) := by
  -- the fold over a part of the reflections, whose first has index `k`
  have hfold (l : List (Option (Reflector ℝ m))) (k : ℕ) (hl : ∀ i r, l[i]? = some r → rs[k + i]? = some r) :
      (((l.map reflectionScale).zipIdx k).foldr (fun (tau, j) q => f.reflect j tau q) .identity).toMatrix =
        reflections (directions l) := by
    induction l generalizing k with
    | nil => exact Dense.toMatrix_identity
    | cons r l ih =>
      have hrest : ∀ i r', l[i]? = some r' → rs[k + 1 + i]? = some r' := fun i r' hr' => by
        rw [Nat.add_assoc, Nat.add_comm 1 i]
        exact hl (i + 1) r' hr'
      have hfirst : rs[k]? = some r := hl 0 r rfl
      rw [List.map_cons, List.zipIdx_cons, List.foldr_cons, toMatrix_reflect, ih (k + 1) hrest, hf.reflection_eq h hfirst,
        ← reflections_append]
      cases r <;> rfl
  rw [unitary, hf.tau]
  exact hfold rs 0 fun i r hr => by rwa [Nat.zero_add]

end Packs

end QrFactors

/-- The factors of a matrix: a unitary one, from reflections whose scales are zero or between one and two, and a triangular
one. In every column they differ from the matrix by a small share of the column, and not at all if every column that counted
as clear was zero below the diagonal. -/
theorem qr_spec {a : Dense (Amplitude ℝ) m n} {f : QrFactors ℝ m n} (h : qr a = .ok f) :
    f.unitary.toMatrix ∈ unitaryGroup (Fin m) ℂ ∧ f.tau.length = min m n ∧ (∀ t ∈ f.tau, t = 0 ∨ 1 ≤ t ∧ t < 2) ∧
      (∀ c, ‖WithLp.toLp 2 ((a.toMatrix - f.unitary.toMatrix * f.triangle).col c)‖ ≤
        1e-14 * ‖WithLp.toLp 2 (a.toMatrix.col c)‖) ∧
      (Reducer.SkipsExactly (min m n) (.ofDense a) → a.toMatrix = f.unitary.toMatrix * f.triangle) := by
  obtain ⟨rs, last, hrun, hf⟩ := QrFactors.packs_of_qr h
  obtain ⟨htrace, hlength⟩ := Reducer.trace_of_steps hrun
  have hcleared := Reducer.isCleared_ofDense a
  have htriangle : f.triangle = last.work.toMatrix := by
    refine hf.triangle_eq fun i c hi => htrace.isCleared hcleared i c ?_ hi
    have hnext : last.next = 0 + min m n := hlength ▸ htrace.next_eq
    have := i.isLt
    have := c.isLt
    omega
  rw [hf.toMatrix_unitary htrace, htriangle, hf.tau]
  refine ⟨htrace.reflections_mem_unitary, by rw [List.length_map, hlength], fun t ht => ?_, htrace.columnLength_sub_le hcleared,
    fun hexact => htrace.eq_mul hcleared (hlength.symm ▸ hexact)⟩
  obtain ⟨r, hr, rfl⟩ := List.mem_map.1 ht
  cases r with
  | none => exact .inl rfl
  | some r =>
    obtain ⟨k, hk⟩ := List.mem_iff_getElem?.1 hr
    exact .inr (htrace.reflectionScale_bounds hk)

end Packing

section Example

/-- A column with a large entry below the diagonal is long enough and is reflected. -/
lemma long_and_not_skips {m n j : ℕ} (work : Dense (Amplitude ℝ) m n) (hn : j < n) {i : Fin m} (hi : j < i.val)
    (hentry : 1 ≤ ‖work.toMatrix i ⟨j, hn⟩‖) (hlength : columnLength work.toMatrix ⟨j, hn⟩ ≤ 4) :
    minColumnNorm ≤ columnNorm work hn ∧ ¬Skips work hn := by
  have hnorm := columnNorm_le_columnLength work hn
  refine ⟨minColumnNorm_le_one.trans (hentry.trans (norm_le_sqrt_tailNormSq (fun i => work.get i ⟨j, hn⟩) hi.le)), fun hskip => ?_⟩
  have hsmall := norm_le_of_skips hskip hi
  rw [reducedRatio_eq] at hsmall
  linarith

/-- Three rows and two columns, neither of length one. -/
noncomputable def tall : Dense (Amplitude ℝ) 3 2 := .ofMatrix !![0, 1; 2, 0; 0, 3 * I]

/-- No column of the example is longer than four. -/
lemma columnLength_tall (c : Fin 2) : columnLength tall.toMatrix c ≤ 4 := by
  rw [← sq_le_sq₀ (columnLength_nonneg _ c) (by norm_num), columnLength_sq, Fin.sum_univ_three]
  fin_cases c <;> simp [tall, Complex.normSq_apply] <;> norm_num

/-- Both columns of the example are reflected. -/
lemma steps_tall : Reducer.SkipsExactly 2 (.ofDense tall) ∧
    ∃ (rs : List (Option (Reflector ℝ 3))) (last : Reducer ℝ 3 2),
      ((Reducer.steps 2).run (Reducer.ofDense tall)).run = (.ok rs, last) := by
  have hm : (Reducer.ofDense tall).next < 3 := Nat.succ_pos 2
  have hn : (Reducer.ofDense tall).next < 2 := Nat.succ_pos 1
  obtain ⟨hlong, hskip⟩ := long_and_not_skips (Reducer.ofDense tall).work hn (i := 1) Nat.one_pos
    (by simp [Reducer.ofDense, tall]) (columnLength_tall _)
  have hreflected := (Reducer.isCleared_ofDense tall).toMatrix_reflected hm hn hlong
  have hunit := (clears_columnReflector hm (minColumnNorm_pos.trans_le hlong)).unit
  have hm₁ : ((Reducer.ofDense tall).reflected hm hn).next < 3 := Nat.succ_lt_succ (Nat.succ_pos 1)
  have hn₁ : ((Reducer.ofDense tall).reflected hm hn).next < 2 := Nat.lt_succ_self 1
  -- the second column keeps its length and, since that of the first column is zero, its last entry
  obtain ⟨hlong₁, hskip₁⟩ := long_and_not_skips ((Reducer.ofDense tall).reflected hm hn).work hn₁ (i := 2)
    (Nat.lt_succ_self 1) (by
      have hzero : (columnReflector (Reducer.ofDense tall).work hm hn).direction 2 = 0 :=
        direction_columnReflector_eq_zero _ hm hn (Nat.succ_pos 1) (by simp [Reducer.ofDense, tall])
      rw [hreflected, reflection_mul_apply, hzero, mul_zero, zero_mul, sub_zero]
      change 1 ≤ ‖tall.toMatrix 2 1‖
      simp [tall]) (by
      rw [hreflected, columnLength_mul (reflection_mem_unitary hunit)]
      exact columnLength_tall _)
  have hstep := Reducer.step_of_not_skips hm hn hlong hskip
  have hstep₁ := Reducer.step_of_not_skips hm₁ hn₁ hlong₁ hskip₁
  refine ⟨⟨fun h => ?_, ⟨fun h => ?_, trivial⟩⟩, _, _, run_bind hstep |>.trans (run_bind (run_bind hstep₁))⟩
  · rw [hstep] at h
    cases h
  · rw [hstep, hstep₁] at h
    cases h

end Example

/-- The factors of a matrix of three rows and two columns. -/
theorem qr_spec_tall : ∃ f, qr tall = .ok f ∧ f.unitary.toMatrix ∈ unitaryGroup (Fin 3) ℂ ∧ f.tau.length = 2 ∧
    (∀ t ∈ f.tau, t = 0 ∨ 1 ≤ t ∧ t < 2) ∧
    (∀ c, ‖WithLp.toLp 2 ((tall.toMatrix - f.unitary.toMatrix * f.triangle).col c)‖ ≤
      1e-14 * ‖WithLp.toLp 2 (tall.toMatrix.col c)‖) ∧ tall.toMatrix = f.unitary.toMatrix * f.triangle := by
  obtain ⟨hexact, rs, last, hrun⟩ := steps_tall
  obtain ⟨f, hf⟩ := QrFactors.exists_qr_eq_ok hrun
  obtain ⟨hunitary, hlength, htau, hcolumns, hproduct⟩ := qr_spec hf
  exact ⟨f, hf, hunitary, hlength, htau, hcolumns, hproduct hexact⟩

end Householder

end CircuitSynthesis
