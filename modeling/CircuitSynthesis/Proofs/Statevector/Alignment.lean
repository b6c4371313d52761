import Mathlib
import CircuitSynthesis.Proofs.Exact.Dense
import CircuitSynthesis.Statevector.Basic

/-!
# Operators up to a phase

Two operators are compared by the Frobenius distance that remains once the first is turned towards the second. The distance
at a phase depends on the phase through the overlap alone (`norm_smul_sub_sq`), so that the phase of the overlap is the best
one (`norm_alignment_smul_sub_le`). Hence the error that is reported is the least one over all phases, relative to the first
operator (`phaseAlignedError_spec`), and it is within a tolerance if and only if some phase brings the operators together
within it.
-/

namespace CircuitSynthesis

open Matrix
open Complex (I exp)
open scoped Matrix.Norms.Frobenius

variable {m n : ℕ} {tolerance : ℝ}

/-- The squared Frobenius norm sums the squared moduli of the entries. -/
lemma frobenius_norm_sq (M : Matrix (Fin m) (Fin n) ℂ) : ‖M‖ ^ 2 = ∑ i, ∑ j, Complex.normSq (M i j) := by
  have hnonneg : 0 ≤ ∑ i, ∑ j, Complex.normSq (M i j) :=
    Finset.sum_nonneg fun i _ => Finset.sum_nonneg fun j _ => Complex.normSq_nonneg _
  rw [frobenius_norm_def, ← Real.sqrt_eq_rpow]
  simp only [Real.rpow_two, ← Complex.normSq_eq_norm_sq]
  exact Real.sq_sqrt hnonneg

/-- The squared norm of a stored matrix is that of the matrix. -/
lemma Dense.normSq_eq_norm_sq (M : Dense (Amplitude ℝ) m n) : M.normSq = ‖M.toMatrix‖ ^ 2 := by
  rw [normSq_eq_sum, frobenius_norm_sq]

/-- The norm of a stored matrix is that of the matrix. -/
lemma Dense.norm_eq (M : Dense (Amplitude ℝ) m n) : M.norm = ‖M.toMatrix‖ := by
  rw [Dense.norm, normSq_eq_norm_sq]
  exact Real.sqrt_sq (norm_nonneg _)

/-- The squared Frobenius norm is the trace of a product. -/
lemma ofReal_frobenius_norm_sq (M : Matrix (Fin m) (Fin n) ℂ) : ((‖M‖ ^ 2 : ℝ) : ℂ) = (M * Mᴴ).trace := by
  rw [frobenius_norm_sq, Complex.ofReal_sum]
  refine Finset.sum_congr rfl fun i _ => ?_
  rw [diag_apply, Matrix.mul_apply, Complex.ofReal_sum]
  exact Finset.sum_congr rfl fun j _ => (Complex.mul_conj (M i j)).symm

/-- The norm of a multiple of the identity. -/
lemma frobenius_norm_smul_one (z : ℂ) : ‖z • (1 : Matrix (Fin n) (Fin n) ℂ)‖ = √n * ‖z‖ := by
  have hone : ‖(1 : Matrix (Fin n) (Fin n) ℂ)‖ = √n := by
    have h := congrArg NNReal.toReal (frobenius_nnnorm_one (n := Fin n) (α := ℂ))
    simpa using h
  rw [norm_smul, hone, mul_comm]

/-- A unitary matrix on the right keeps the norm. -/
lemma frobenius_norm_mul_of_mem_unitary {U : Matrix (Fin n) (Fin n) ℂ} (hU : U ∈ unitaryGroup (Fin n) ℂ)
    (M : Matrix (Fin m) (Fin n) ℂ) : ‖M * U‖ = ‖M‖ := by
  have hsq : ‖M * U‖ ^ 2 = ‖M‖ ^ 2 := by
    rw [← Complex.ofReal_inj, ofReal_frobenius_norm_sq, ofReal_frobenius_norm_sq, conjTranspose_mul, Matrix.mul_assoc,
      ← Matrix.mul_assoc U, ← star_eq_conjTranspose U, mem_unitaryGroup_iff.1 hU, Matrix.one_mul]
  exact (sq_eq_sq₀ (norm_nonneg _) (norm_nonneg _)).1 hsq

section Overlap

variable (M A : Matrix (Fin m) (Fin n) ℂ)

/-- The inner product of two operators. -/
def overlap : ℂ := ∑ i, ∑ j, star (M i j) * A i j

/-- Of the distance between a turned operator and another one, only the overlap depends on the turn. -/
lemma norm_smul_sub_sq {z : ℂ} (hz : ‖z‖ = 1) :
    ‖z • M - A‖ ^ 2 = ‖M‖ ^ 2 + ‖A‖ ^ 2 - 2 * (star z * overlap M A).re := by
  have hentry (a b : ℂ) : Complex.normSq (z * a - b) =
      Complex.normSq a + Complex.normSq b - 2 * (star z * (star a * b)).re := by
    have hswap : (z * a * star b).re = (star z * (star a * b)).re := by
      rw [← Complex.conj_re (z * a * star b), map_mul, map_mul, Complex.star_def, Complex.conj_conj, mul_assoc]
    rw [Complex.normSq_sub, Complex.normSq_mul, Complex.normSq_eq_norm_sq z, hz, one_pow, one_mul, ← Complex.star_def, hswap]
  rw [frobenius_norm_sq, frobenius_norm_sq, frobenius_norm_sq, overlap]
  simp only [Matrix.sub_apply, Matrix.smul_apply, smul_eq_mul, hentry, Finset.sum_sub_distrib, Finset.sum_add_distrib,
    Finset.mul_sum, Complex.re_sum]

/-- The phase of the overlap, or one if there is none. -/
noncomputable def alignment : ℂ := if 0 < ‖overlap M A‖ then overlap M A / ‖overlap M A‖ else 1

/-- The aligning phase has modulus one. -/
lemma norm_alignment : ‖alignment M A‖ = 1 := by
  rw [alignment]
  split
  case isTrue h => rw [norm_div, Complex.norm_real, norm_norm, div_self h.ne']
  case isFalse => exact norm_one

/-- Aligned, the overlap is real and as large as it can be. -/
lemma re_star_alignment_mul : (star (alignment M A) * overlap M A).re = ‖overlap M A‖ := by
  rw [alignment]
  split
  case isTrue h =>
    have hne : (‖overlap M A‖ : ℂ) ≠ 0 := Complex.ofReal_ne_zero.2 h.ne'
    rw [star_div₀, Complex.star_def, Complex.conj_ofReal, div_mul_eq_mul_div, Complex.conj_mul', sq, mul_div_cancel_right₀ _ hne,
      Complex.ofReal_re]
  case isFalse h =>
    have hzero : overlap M A = 0 := norm_le_zero_iff.1 (not_lt.1 h)
    rw [hzero, mul_zero, Complex.zero_re, norm_zero]

/-- No phase brings the operators closer than that of the overlap. -/
theorem norm_alignment_smul_sub_le {z : ℂ} (hz : ‖z‖ = 1) : ‖alignment M A • M - A‖ ≤ ‖z • M - A‖ := by
  have hre : (star z * overlap M A).re ≤ ‖overlap M A‖ :=
    calc (star z * overlap M A).re ≤ ‖star z * overlap M A‖ := Complex.re_le_norm _
      _ = ‖overlap M A‖ := by rw [norm_mul, norm_star, hz, one_mul]
  refine le_of_sq_le_sq ?_ (norm_nonneg _)
  rw [norm_smul_sub_sq M A (norm_alignment M A), norm_smul_sub_sq M A hz, re_star_alignment_mul]
  linarith

end Overlap

/-- Whether a phase brings an operator to another one within a tolerance, which is relative to the operator as long as that is
not zero. -/
def AgreesUpToPhase (tolerance : ℝ) (M A : Matrix (Fin m) (Fin n) ℂ) : Prop :=
  (M = 0 → ‖A‖ ≤ tolerance) ∧ (M ≠ 0 → ∃ t : ℝ, ‖exp (t * I) • M - A‖ ≤ tolerance * ‖M‖)

/-- If any phase is good enough, that of the overlap is. -/
lemma exists_phase_iff (M A : Matrix (Fin m) (Fin n) ℂ) (bound : ℝ) :
    (∃ t : ℝ, ‖exp (t * I) • M - A‖ ≤ bound) ↔ ‖alignment M A • M - A‖ ≤ bound := by
  constructor
  · rintro ⟨t, ht⟩
    exact (norm_alignment_smul_sub_le M A (Complex.norm_exp_ofReal_mul_I t)).trans ht
  · intro h
    refine ⟨(alignment M A).arg, ?_⟩
    rwa [Complex.exp_arg_mul_I_of_norm_eq_one (norm_alignment M A)]

section Distance

variable {M A : Matrix (Fin m) (Fin n) ℂ} {z w : ℂ}

/-- The distance that remains after alignment, relative to the first operator unless that is zero. -/
noncomputable def alignedDistance (M A : Matrix (Fin m) (Fin n) ℂ) : ℝ :=
  if M = 0 then ‖A‖ else ‖alignment M A • M - A‖ / ‖M‖

/-- Against the zero operator the distance is the norm. -/
lemma alignedDistance_of_eq_zero (A : Matrix (Fin m) (Fin n) ℂ) (hM : M = 0) : alignedDistance M A = ‖A‖ := if_pos hM

/-- Against any other operator the distance is relative to it. -/
lemma alignedDistance_of_ne_zero (A : Matrix (Fin m) (Fin n) ℂ) (hM : M ≠ 0) :
    alignedDistance M A = ‖alignment M A • M - A‖ / ‖M‖ := if_neg hM

/-- The distance is not negative. -/
lemma alignedDistance_nonneg (M A : Matrix (Fin m) (Fin n) ℂ) : 0 ≤ alignedDistance M A := by
  rw [alignedDistance]
  split
  · exact norm_nonneg A
  · positivity

/-- The least of the distances at all phases. -/
lemma isLeast_alignedDistance (A : Matrix (Fin m) (Fin n) ℂ) (hM : M ≠ 0) :
    IsLeast {d | ∃ z : ℂ, ‖z‖ = 1 ∧ d = ‖z • M - A‖ / ‖M‖} (alignedDistance M A) := by
  rw [alignedDistance_of_ne_zero A hM]
  refine ⟨⟨alignment M A, norm_alignment M A, rfl⟩, ?_⟩
  rintro _ ⟨z, hz, rfl⟩
  exact div_le_div_of_nonneg_right (norm_alignment_smul_sub_le M A hz) (norm_nonneg M)

/-- There is no distance between an operator and its multiples by a phase, and only there. -/
lemma alignedDistance_eq_zero_iff : alignedDistance M A = 0 ↔ ∃ z : ℂ, ‖z‖ = 1 ∧ A = z • M := by
  by_cases hM : M = 0
  case pos =>
    rw [alignedDistance_of_eq_zero A hM, norm_eq_zero, hM]
    simp only [smul_zero]
    exact ⟨fun hA => ⟨1, norm_one, hA⟩, fun ⟨_, _, hA⟩ => hA⟩
  case neg =>
    constructor
    · intro hzero
      rw [alignedDistance_of_ne_zero A hM, div_eq_zero_iff, or_iff_left (norm_ne_zero_iff.2 hM), norm_eq_zero] at hzero
      exact ⟨alignment M A, norm_alignment M A, (sub_eq_zero.1 hzero).symm⟩
    · rintro ⟨z, hz, rfl⟩
      apply le_antisymm _ (alignedDistance_nonneg M _)
      have hle := (isLeast_alignedDistance (z • M) hM).2 ⟨z, hz, rfl⟩
      rwa [sub_self, norm_zero, zero_div] at hle

/-- A number of modulus one is inverted by its conjugate. -/
lemma star_mul_self_of_norm_eq_one (hz : ‖z‖ = 1) : star z * z = 1 := by
  rw [Complex.star_def, Complex.conj_mul', hz, Complex.ofReal_one, one_pow]

/-- Turning either operator can be made up for by the phase. -/
lemma alignedDistance_smul_smul_le (hz : ‖z‖ = 1) (hw : ‖w‖ = 1) : alignedDistance (z • M) (w • A) ≤ alignedDistance M A := by
  by_cases hM : M = 0
  case pos =>
    apply le_of_eq
    rw [hM, smul_zero, alignedDistance_of_eq_zero _ rfl, alignedDistance_of_eq_zero _ rfl, norm_smul, hw, one_mul]
  case neg =>
    have hne : z ≠ 0 := norm_ne_zero_iff.1 (hz.trans_ne one_ne_zero)
    have hturned : (w * alignment M A * star z) • z • M - w • A = w • (alignment M A • M - A) := by
      rw [smul_smul, mul_assoc, star_mul_self_of_norm_eq_one hz, mul_one, smul_sub, smul_smul]
    apply (isLeast_alignedDistance (w • A) (smul_ne_zero hne hM)).2
    refine ⟨w * alignment M A * star z, ?_, ?_⟩
    · rw [norm_mul, norm_mul, norm_star, norm_alignment, hz, hw, mul_one, mul_one]
    · rw [hturned, norm_smul, norm_smul, hz, hw, one_mul, one_mul, alignedDistance_of_ne_zero A hM]

/-- Phases in front of either operator do not change the distance. -/
lemma alignedDistance_smul_smul (hz : ‖z‖ = 1) (hw : ‖w‖ = 1) :
    alignedDistance (z • M) (w • A) = alignedDistance M A := by
  apply le_antisymm (alignedDistance_smul_smul_le hz hw)
  calc alignedDistance M A = alignedDistance (star z • z • M) (star w • w • A) := by
        rw [smul_smul, smul_smul, star_mul_self_of_norm_eq_one hz, star_mul_self_of_norm_eq_one hw, one_smul, one_smul]
    _ ≤ alignedDistance (z • M) (w • A) := by
        apply alignedDistance_smul_smul_le
        · rw [norm_star, hz]
        · rw [norm_star, hw]

end Distance

section Error

variable (M A : Dense (Amplitude ℝ) m n)

/-- The sum that is computed is the overlap. -/
lemma toComplex_overlap :
    (Scalar.sumFin fun i => Scalar.sumFin fun j => (M.get i j).conj * A.get i j : Amplitude ℝ).toComplex =
      overlap M.toMatrix A.toMatrix := by
  rw [Amplitude.toComplex_sumFin]
  refine Finset.sum_congr rfl fun i _ => ?_
  rw [Amplitude.toComplex_sumFin]
  refine Finset.sum_congr rfl fun j _ => ?_
  rw [Amplitude.toComplex_mul, Amplitude.toComplex_conj]
  rfl

/-- Operators of the same dimensions can be compared. -/
lemma phaseAlignedError_eq_ok : phaseAlignedError M A = .ok (alignedDistance M.toMatrix A.toMatrix) := by
  have hoverlap := toComplex_overlap M A
  have halign (o : Amplitude ℝ) (ho : o.toComplex = overlap M.toMatrix A.toMatrix) :
      (if 0 < o.norm then o.divReal o.norm else 1).toComplex = alignment M.toMatrix A.toMatrix := by
    rw [alignment, Amplitude.norm_eq, ho]
    split
    · rw [Amplitude.toComplex_divReal, ho]
    · rfl
  have hdifference (z : Amplitude ℝ) : (M.scale z - A).normSq = ‖z.toComplex • M.toMatrix - A.toMatrix‖ ^ 2 := by
    rw [Dense.normSq_eq_norm_sq, Dense.toMatrix_sub, Dense.toMatrix_scale]
  rw [phaseAlignedError, dif_pos ⟨rfl, rfl⟩, Dense.cast_rfl]
  dsimp only
  rw [hdifference, halign _ hoverlap, Dense.normSq_eq_norm_sq]
  split
  case isTrue hscale =>
    have hM : M.toMatrix = 0 := by simpa using hscale
    rw [alignedDistance_of_eq_zero _ hM, hM, smul_zero, zero_sub, norm_neg, Scalar.sqrt_real, Real.sqrt_sq (norm_nonneg _)]
  case isFalse hscale =>
    have hM : M.toMatrix ≠ 0 := by simpa using hscale
    rw [alignedDistance_of_ne_zero _ hM, Scalar.sqrt_real, ← div_pow, Real.sqrt_sq (by positivity)]

/-- The error is within a tolerance if and only if the operators agree up to a phase. -/
theorem phaseAlignedError_le_iff : ∃ error, phaseAlignedError M A = .ok error ∧
    (error ≤ tolerance ↔ AgreesUpToPhase tolerance M.toMatrix A.toMatrix) := by
  refine ⟨_, phaseAlignedError_eq_ok M A, ?_⟩
  rw [AgreesUpToPhase, exists_phase_iff]
  by_cases hM : M.toMatrix = 0
  case pos =>
    rw [alignedDistance_of_eq_zero _ hM]
    exact ⟨fun h => ⟨fun _ => h, fun h' => absurd hM h'⟩, fun h => h.1 hM⟩
  case neg =>
    rw [alignedDistance_of_ne_zero _ hM, div_le_iff₀ (norm_pos_iff.2 hM)]
    exact ⟨fun h => ⟨fun h' => absurd h' hM, fun _ => h⟩, fun h => h.2 hM⟩

/-- The error of two operators of the same dimensions is the least distance between them over all phases, relative to the
first operator, or the norm of the second one if the first is zero. There is no error if and only if the operators are the
same up to a phase, and turning either of them by a phase does not change it. Operators of different dimensions are
refused. -/
theorem phaseAlignedError_spec {k l : ℕ} (B : Dense (Amplitude ℝ) k l) :
    (∃ error, phaseAlignedError M A = .ok error ∧
      (M.toMatrix ≠ 0 →
        IsLeast {d | ∃ z : ℂ, ‖z‖ = 1 ∧ d = ‖z • M.toMatrix - A.toMatrix‖ / ‖M.toMatrix‖} error) ∧
      (M.toMatrix = 0 → error = ‖A.toMatrix‖) ∧
      (error = 0 ↔ ∃ z : ℂ, ‖z‖ = 1 ∧ A.toMatrix = z • M.toMatrix) ∧
      ∀ z : Amplitude ℝ, ‖z.toComplex‖ = 1 →
        phaseAlignedError (M.scale z) A = .ok error ∧ phaseAlignedError M (A.scale z) = .ok error) ∧
    (¬ (k = m ∧ l = n) → phaseAlignedError M B = .error (.dimensionMismatch k l m)) := by
  refine ⟨⟨_, phaseAlignedError_eq_ok M A, isLeast_alignedDistance _, alignedDistance_of_eq_zero _,
    alignedDistance_eq_zero_iff, fun z hz => ⟨?_, ?_⟩⟩, fun hne => dif_neg hne⟩
  · have hturned := alignedDistance_smul_smul (M := M.toMatrix) (A := A.toMatrix) hz norm_one
    rw [one_smul] at hturned
    rw [phaseAlignedError_eq_ok, Dense.toMatrix_scale, hturned]
  · have hturned := alignedDistance_smul_smul (M := M.toMatrix) (A := A.toMatrix) norm_one hz
    rw [one_smul] at hturned
    rw [phaseAlignedError_eq_ok, Dense.toMatrix_scale, hturned]

/-- A row, compared with the row turned by a quarter and with a column. -/
theorem phaseAlignedError_spec_turnedRow :
    (Dense.ofMatrix !![1, I]).toMatrix ≠ 0 ∧ ‖(.i : Amplitude ℝ).toComplex‖ = 1 ∧ ¬ (2 = 1 ∧ 1 = 2) ∧
    phaseAlignedError (.ofMatrix !![1, I]) ((Dense.ofMatrix !![1, I]).scale .i) = .ok 0 ∧
    IsLeast {d | ∃ z : ℂ, ‖z‖ = 1 ∧ d = ‖z • !![1, I] - I • !![1, I]‖ / ‖!![1, I]‖} 0 ∧
    phaseAlignedError (.ofMatrix !![1, I]) (.ofMatrix !![1; I]) = .error (.dimensionMismatch 2 1 1) := by
  have hM : (Dense.ofMatrix !![1, I]).toMatrix ≠ 0 := by
    intro h
    have hentry := congrFun (congrFun h 0) 0
    simp at hentry
  have hi : ‖(.i : Amplitude ℝ).toComplex‖ = 1 := by simp
  have hne : ¬ (2 = 1 ∧ 1 = 2) := by decide
  obtain ⟨⟨error, herror, hleast, -, hzero, -⟩, hrefused⟩ :=
    phaseAlignedError_spec (.ofMatrix !![1, I]) ((Dense.ofMatrix !![1, I]).scale .i) (.ofMatrix !![1; I])
  obtain rfl : error = 0 := hzero.2 ⟨I, Complex.norm_I, Dense.toMatrix_scale _ _⟩
  refine ⟨hM, hi, hne, herror, ?_, hrefused hne⟩
  simpa using hleast hM

end Error

end CircuitSynthesis
