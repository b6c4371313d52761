import Mathlib
import CircuitSynthesis.Proofs.Register.Wire

/-!
# States of a register

`placed` is the state that has given amplitudes on some consecutive wires while the other wires read as in a basis
index. An operator on the wire below those wires that maps zero to a column turns it into another such state with one
wire more (`wireOperator_mulVec_placed`), whose amplitudes are spread over pairs. `norm_spread` and `norm_spread_le` say
how far spreading changes the length of the amplitudes.
-/

namespace CircuitSynthesis

open Matrix
open Finset (range)

section Placed

/-- The index with the `m` wires from `lo` on cleared. -/
def clearField (lo m i : ℕ) : ℕ := i ^^^ field lo m i <<< lo

variable {n lo m i : ℕ}

/-- Clearing a field keeps the bits outside it. -/
@[simp] lemma testBit_clearField (lo m i q : ℕ) :
    (clearField lo m i).testBit q = (i.testBit q && !(decide (lo ≤ q) && decide (q < lo + m))) := by
  rw [clearField, Nat.testBit_xor, Nat.testBit_shiftLeft, testBit_field]
  by_cases hlo : lo ≤ q
  · rw [Nat.add_sub_cancel' hlo]
    by_cases hhi : q < lo + m
    · simp [hlo, hhi, show q - lo < m by omega]
    · simp [hhi, show ¬ q - lo < m by omega]
  · simp [hlo]

@[simp] lemma clearField_zero (lo i : ℕ) : clearField lo 0 i = i := by
  rw [clearField, field, pow_zero, Nat.mod_one, Nat.zero_shiftLeft, Nat.xor_zero]

/-- To clear a field is to clear its lowest wire and the wires above. -/
lemma clearField_succ (lo m i : ℕ) : clearField lo (m + 1) i = clearField (lo + 1) m (setWire lo false i) := by
  apply Nat.eq_of_testBit_eq
  intro q
  rw [testBit_clearField, testBit_clearField, testBit_setWire]
  by_cases hq : q = lo
  · simp [hq]
  · have hle : lo + 1 ≤ q ↔ lo ≤ q := by omega
    have hlt : q < lo + 1 + m ↔ q < lo + (m + 1) := by omega
    simp only [hq, hle, hlt, if_false]

/-- The lowest wires cleared. -/
lemma clearField_lowest (m i : ℕ) : clearField 0 m i = 2 ^ m * (i / 2 ^ m) := by
  apply Nat.eq_of_testBit_eq
  intro q
  rw [testBit_clearField, Nat.testBit_two_pow_mul, Nat.testBit_div_two_pow]
  by_cases hq : m ≤ q
  · simp [hq, Nat.sub_add_cancel hq]
  · simp [hq, not_le.1 hq]

/-- The lowest wires read the index modulo a power of two. -/
lemma field_lowest (m i : ℕ) : field 0 m i = i % 2 ^ m := by rw [field, pow_zero, Nat.div_one]

/-- No wires read nothing. -/
lemma field_zero (lo i : ℕ) : field lo 0 i = 0 := by rw [field, pow_zero, Nat.mod_one]

/-- A basis state of `n` wires. -/
def basisState (n s : ℕ) (i : Fin (2 ^ n)) : ℂ := if i.val = s then 1 else 0

/-- The state with amplitudes `e` on the `m` wires from `lo` on, the other wires reading as in `s`. -/
def placed (n lo m s : ℕ) (e : ℕ → ℂ) (i : Fin (2 ^ n)) : ℂ := if clearField lo m i = s then e (field lo m i) else 0

/-- Amplitudes on no wires are a multiple of a basis state. -/
lemma placed_zero (n lo s : ℕ) (e : ℕ → ℂ) : placed n lo 0 s e = e 0 • basisState n s := by
  funext i
  rw [placed, clearField_zero, field_zero, Pi.smul_apply, basisState, smul_eq_mul, mul_ite, mul_one, mul_zero]

/-- A placed state only depends on as many amplitudes as its wires have values. -/
lemma placed_congr {s : ℕ} {e e' : ℕ → ℂ} (h : ∀ x < 2 ^ m, e x = e' x) : placed n lo m s e = placed n lo m s e' := by
  funext i
  rw [placed, placed, h _ (field_lt lo m i)]

/-- Amplitudes spread over pairs, each by a factor for either half. -/
def spread (a : ℕ → Bool → ℂ) (e : ℕ → ℂ) (x : ℕ) : ℂ := a (x / 2) (x.testBit 0) * e (x / 2)

/-- An operator on the wire below some wires, controlled by them, spreads their amplitudes by its first columns. -/
lemma wireOperator_mulVec_placed {s : ℕ} (hlo : lo < n) (hs : s.testBit lo = false) (N : ℕ → Matrix Bool Bool ℂ) (e : ℕ → ℂ) :
    wireOperator n lo (fun i => N (field (lo + 1) m i)) *ᵥ placed n (lo + 1) m s e =
      placed n lo (m + 1) s (spread (fun y b => N y b false) e) := by
  funext i
  have hset : placed n (lo + 1) m s e (setWireFin hlo true i) = 0 := by
    refine if_neg fun h => ?_
    have hbit := congrArg (Nat.testBit · lo) h
    simp [setWireFin, hs] at hbit
  have hclear : placed n (lo + 1) m s e (setWireFin hlo false i) =
      if clearField lo (m + 1) i = s then e (field (lo + 1) m i) else 0 := by
    rw [placed, setWireFin, ← clearField_succ, field_setWire (by omega)]
  rw [wireOperator_mulVec hlo, hset, mul_zero, zero_add, hclear, placed, mul_ite, mul_zero, spread, field_succ,
    Nat.testBit_bit_zero, Nat.bit_div_two]

end Placed

section Length

/-- The first `2^m` amplitudes as a vector with its Euclidean length. -/
def amplitudes (m : ℕ) (f : ℕ → ℂ) : EuclideanSpace ℂ (Fin (2 ^ m)) := WithLp.toLp 2 fun x => f x

variable {m : ℕ} {a : ℕ → Bool → ℂ} {f g : ℕ → ℂ}

/-- The squared length of some amplitudes sums their squared moduli. -/
lemma norm_amplitudes_sq (m : ℕ) (f : ℕ → ℂ) : ‖amplitudes m f‖ ^ 2 = ∑ x ∈ range (2 ^ m), ‖f x‖ ^ 2 := by
  rw [EuclideanSpace.norm_sq_eq, Finset.sum_range]
  rfl

/-- The length only depends on the amplitudes below `2 ^ m`. -/
lemma amplitudes_congr (h : ∀ x < 2 ^ m, f x = g x) : amplitudes m f = amplitudes m g := by
  ext x
  exact h x x.isLt

/-- A sum over an even number of terms, pair by pair. -/
lemma sum_range_pairs (h : ℕ → ℝ) (q : ℕ) :
    ∑ x ∈ range (q * 2), h x = ∑ y ∈ range q, (h (Nat.bit false y) + h (Nat.bit true y)) := by
  induction q with
  | zero => simp
  | succ q ih =>
    rw [Nat.succ_mul, Finset.sum_range_succ, Finset.sum_range_succ, ih, Finset.sum_range_succ, add_assoc,
      Nat.bit_false, Nat.bit_true, Nat.mul_comm]

/-- The squared length of spread amplitudes weighs each by the two factors of its pair. -/
lemma norm_spread_sq (m : ℕ) (a : ℕ → Bool → ℂ) (f : ℕ → ℂ) : ‖amplitudes (m + 1) (spread a f)‖ ^ 2 =
    ∑ y ∈ range (2 ^ m), (‖a y false‖ ^ 2 + ‖a y true‖ ^ 2) * ‖f y‖ ^ 2 := by
  rw [norm_amplitudes_sq, Nat.pow_succ, sum_range_pairs]
  refine Finset.sum_congr rfl fun y _ => ?_
  simp only [spread, Nat.bit_div_two, Nat.testBit_bit_zero]
  rw [norm_mul, norm_mul, mul_pow, mul_pow, add_mul]

/-- Spreading by unit columns keeps the length. -/
lemma norm_spread (h : ∀ y < 2 ^ m, ‖a y false‖ ^ 2 + ‖a y true‖ ^ 2 = 1) :
    ‖amplitudes (m + 1) (spread a f)‖ = ‖amplitudes m f‖ := by
  rw [← sq_eq_sq₀ (norm_nonneg _) (norm_nonneg _), norm_spread_sq, norm_amplitudes_sq]
  refine Finset.sum_congr rfl fun y hy => ?_
  rw [h y (Finset.mem_range.1 hy), one_mul]

/-- Spreading by columns of length at most `r` multiplies the length by at most `r`. -/
lemma norm_spread_le {r : ℝ} (hr : 0 ≤ r) (h : ∀ y < 2 ^ m, ‖a y false‖ ^ 2 + ‖a y true‖ ^ 2 ≤ r ^ 2) :
    ‖amplitudes (m + 1) (spread a f)‖ ≤ r * ‖amplitudes m f‖ := by
  rw [← sq_le_sq₀ (norm_nonneg _) (mul_nonneg hr (norm_nonneg _)), mul_pow, norm_spread_sq, norm_amplitudes_sq,
    Finset.mul_sum]
  exact Finset.sum_le_sum fun y hy => mul_le_mul_of_nonneg_right (h y (Finset.mem_range.1 hy)) (sq_nonneg _)

end Length

end CircuitSynthesis
