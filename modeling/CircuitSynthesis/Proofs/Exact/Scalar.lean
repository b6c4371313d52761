import Mathlib
import CircuitSynthesis.Proofs.Numerals
import CircuitSynthesis.Scalar

/-!
# Real scalars

The real numbers are scalars, and what is computed over them is computed without rounding: every number is finite,
angles lie in `(-π, π]`, and the angle of the origin is zero. The sums of the library, whatever their order of addition,
are finite sums; `map_sumFin`, `map_laneSum` and `map_sum` say so under any map that preserves addition.
-/

namespace CircuitSynthesis

/-- The real numbers, with rounding to the nearest integer away from zero. -/
noncomputable instance realScalar : Scalar ℝ where
  decideLt := Real.decidableLT
  decideLe := Real.decidableLE
  beq x y := decide (x = y)
  pi := Real.pi
  sqrt := Real.sqrt
  abs x := |x|
  sin := Real.sin
  cos := Real.cos
  atan2 y x := Complex.arg ⟨x, y⟩
  hypot x y := √(x * x + y * y)
  floor x := ⌊x⌋
  round x := if 0 ≤ x then ⌊x + 1 / 2⌋ else ⌈x - 1 / 2⌉
  isFinite _ := true
  signBit x := decide (x < 0)

namespace Scalar

section Constants

/-! Over the real numbers the constants and functions of a scalar are the usual ones. -/

@[simp] lemma two_real : (two : ℝ) = 2 := by
  change ((2 : ℕ) : ℝ) = 2
  norm_num

@[simp] lemma tau_real : (tau : ℝ) = 2 * Real.pi := by
  change (two : ℝ) * Real.pi = 2 * Real.pi
  rw [two_real]

@[simp] lemma quarterTurn_real : (quarterTurn : ℝ) = Real.pi / 2 := by
  change Real.pi / (two : ℝ) = Real.pi / 2
  rw [two_real]

@[simp] lemma pi_real : (pi : ℝ) = Real.pi := rfl

@[simp] lemma sqrt_real (x : ℝ) : sqrt x = √x := rfl

@[simp] lemma abs_real (x : ℝ) : Scalar.abs x = |x| := rfl

@[simp] lemma sin_real (x : ℝ) : sin x = Real.sin x := rfl

@[simp] lemma cos_real (x : ℝ) : cos x = Real.cos x := rfl

@[simp] lemma floor_real (x : ℝ) : floor x = ⌊x⌋ := rfl

/-- Rounding goes to the nearest integer and away from zero at the halves. -/
lemma round_real (x : ℝ) : Scalar.round x = if 0 ≤ x then (⌊x + 1 / 2⌋ : ℝ) else (⌈x - 1 / 2⌉ : ℝ) := rfl

/-- The nearest integer is an integer, at most one half away. -/
lemma exists_round_eq (x : ℝ) : ∃ k : ℤ, round x = k ∧ |x - k| ≤ 1 / 2 := by
  rw [round_real]
  split
  · have hle := Int.floor_le (x + 1 / 2)
    have hlt := Int.lt_floor_add_one (x + 1 / 2)
    exact ⟨_, rfl, abs_le.2 ⟨by linarith, by linarith⟩⟩
  · have hle := Int.le_ceil (x - 1 / 2)
    have hlt := Int.ceil_lt_add_one (x - 1 / 2)
    exact ⟨_, rfl, abs_le.2 ⟨by linarith, by linarith⟩⟩

/-- Taking off the nearest multiple of a period leaves at most half a period. -/
lemma exists_round_div_eq {p : ℝ} (hp : 0 < p) (x : ℝ) : ∃ k : ℤ, round (x / p) = k ∧ |x - k * p| ≤ p / 2 := by
  obtain ⟨k, hk, hnear⟩ := exists_round_eq (x / p)
  have hrest : x - k * p = (x / p - k) * p := by
    rw [sub_mul, div_mul_cancel₀ _ hp.ne']
  refine ⟨k, hk, ?_⟩
  calc |x - k * p| = |x / p - k| * p := by rw [hrest, abs_mul, abs_of_pos hp]
    _ ≤ 1 / 2 * p := mul_le_mul_of_nonneg_right hnear hp.le
    _ = p / 2 := by ring

@[simp] lemma isFinite_real (x : ℝ) : Scalar.isFinite x = true := rfl

@[simp] lemma signBit_real (x : ℝ) : Scalar.signBit x = decide (x < 0) := rfl

@[simp] lemma beq_real (x y : ℝ) : (x == y) = decide (x = y) := rfl

/-- The constant is the root of one half. -/
lemma sqrtHalf_real : (sqrtHalf : ℝ) = √(1 / 2) := by
  change √(1 / (two : ℝ)) = √(1 / 2)
  rw [two_real]

/-- The root of one half squares to one half. -/
lemma sqrtHalf_mul_self : (sqrtHalf : ℝ) * sqrtHalf = 1 / 2 := by
  rw [sqrtHalf_real]
  exact Real.mul_self_sqrt (by norm_num)

/-- The root of one half squares to one half among the complex numbers too. -/
lemma ofReal_sqrtHalf_mul_self : ((sqrtHalf : ℝ) : ℂ) * (sqrtHalf : ℝ) = 1 / 2 := by
  rw [← Complex.ofReal_mul, sqrtHalf_mul_self]
  norm_num

/-- A decimal is a fraction over a power of ten. -/
lemma ofScientific_real (m e : ℕ) : (OfScientific.ofScientific m true e : ℝ) = m / 10 ^ e := by
  rw [NNRatCast.ofScientific_eq_ite, if_pos rfl, NNRat.divNat_eq_div]
  push_cast
  rfl

/-- A running maximum never falls. -/
lemma le_maximum_left (x y : ℝ) : x ≤ maximum x y := by
  unfold maximum
  split
  · assumption
  · exact le_rfl

/-- The maximum is not below the second number. -/
lemma le_maximum_right (x y : ℝ) : y ≤ maximum x y := by
  unfold maximum
  split
  · exact le_rfl
  · exact le_of_not_ge ‹_›

/-- A bound on two numbers bounds their maximum. -/
lemma maximum_le {x y b : ℝ} (hx : x ≤ b) (hy : y ≤ b) : maximum x y ≤ b := by
  unfold maximum
  split
  · assumption
  · assumption

end Constants

section Sums

variable {α β : Type} [Zero α] [Add α] [AddCommMonoid β]

omit [Zero α] in
/-- A sum from the left is a finite sum. -/
lemma map_foldl_add (φ : α → β) (hadd : ∀ a b, φ (a + b) = φ a + φ b) (init : α) {n : ℕ} (f : Fin n → α) :
    φ (Fin.foldl n (fun acc i => acc + f i) init) = φ init + ∑ i, φ (f i) := by
  induction n with
  | zero => simp
  | succ n ih =>
    rw [Fin.foldl_succ_last, hadd, ih, Fin.sum_univ_castSucc, add_assoc]

/-- A sum by index is a finite sum, under a map that preserves sums. -/
lemma map_sumFin (φ : α → β) (hzero : φ 0 = 0) (hadd : ∀ a b, φ (a + b) = φ a + φ b) {n : ℕ} (f : Fin n → α) :
    φ (sumFin f) = ∑ i, φ (f i) := by
  rw [sumFin, map_foldl_add φ hadd, hzero, zero_add]

/-- A sum over a list is a finite sum, under a map that preserves sums. -/
lemma map_sum (φ : α → β) (hzero : φ 0 = 0) (hadd : ∀ a b, φ (a + b) = φ a + φ b) (xs : List α) :
    φ (sum xs) = (xs.map φ).sum := by
  suffices h : ∀ init, φ (xs.foldl (· + ·) init) = φ init + (xs.map φ).sum by
    rw [sum, h, hzero, zero_add]
  induction xs with
  | nil => simp
  | cons x xs ih =>
    intro init
    rw [List.foldl_cons, ih, hadd, List.map_cons, List.sum_cons, add_assoc]

/-- A sum over whole blocks of eight, lane by lane. -/
lemma sum_blocks (g : ℕ → β) (q : ℕ) :
    ∑ i ∈ Finset.range (8 * q), g i = ∑ l : Fin 8, ∑ i ∈ Finset.range q, g (8 * i + l) := by
  induction q with
  | zero => simp
  | succ q ih =>
    simp only [Finset.sum_range_succ, Finset.sum_add_distrib]
    rw [← ih, mul_add, Finset.sum_range_add, mul_one, Finset.sum_range fun x => g (8 * q + x)]

/-- A sum in eight lanes is a finite sum, under a map that preserves sums: the order of the terms does not matter to it. -/
lemma map_laneSum (φ : α → β) (hzero : φ 0 = 0) (hadd : ∀ a b, φ (a + b) = φ a + φ b) {n : ℕ} (f : Fin n → α) :
    φ (laneSum f) = ∑ i, φ (f i) := by
  let g (i : ℕ) : β := if h : i < n then φ (f ⟨i, h⟩) else 0
  have hg (i : ℕ) (h : i < n) : φ (f ⟨i, h⟩) = g i := by simp [g, h]
  have htotal : ∑ i, φ (f i) = ∑ i ∈ Finset.range (8 * (n / 8) + n % 8), g i := by
    rw [Nat.div_add_mod, Finset.sum_range]
    exact Finset.sum_congr rfl fun i _ => hg i i.isLt
  have hlane (l : Fin 8) : φ (sumFin fun i : Fin (n / 8) => f ⟨8 * i + l, by omega⟩) =
      ∑ i ∈ Finset.range (n / 8), g (8 * i + l) := by
    rw [map_sumFin φ hzero hadd, Finset.sum_range]
    exact Finset.sum_congr rfl fun i _ => hg _ _
  rw [laneSum, map_foldl_add φ hadd, map_sumFin φ hzero hadd, htotal, Finset.sum_range_add, sum_blocks]
  congr 1
  · simp only [hadd, hlane]
    -- the eight lanes, paired four apart
    rw [Finset.sum_add_distrib]
    simp only [Fin.sum_univ_four, Fin.sum_univ_eight]
    simp only [Fin.castLE, Fin.natAdd, Fin.isValue]
    abel
  · rw [Finset.sum_range]
    exact Finset.sum_congr rfl fun i _ => hg _ _

/-- A sum of real numbers by index is a finite sum. -/
lemma sumFin_real {n : ℕ} (f : Fin n → ℝ) : sumFin f = ∑ i, f i :=
  map_sumFin id rfl (fun _ _ => rfl) f

/-- A sum of real numbers in eight lanes is a finite sum. -/
lemma laneSum_real {n : ℕ} (f : Fin n → ℝ) : laneSum f = ∑ i, f i :=
  map_laneSum id rfl (fun _ _ => rfl) f

end Sums

end Scalar

end CircuitSynthesis
