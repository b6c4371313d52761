import Mathlib
import CircuitSynthesis.Proofs.Peeling

/-!
# Reflections below wires that read one

A reflection of a frame acts on the basis states whose top wires all read one, and keeps the others. The gates that are
emitted for it are, with their phase, the reflection along the vector that lies on these basis states alone
(`emitReflection_operator`): the mask of the phase flip and the wires of the preparation agree on which states they are.
-/

namespace CircuitSynthesis

open Matrix
open Complex (I exp)

variable {n depth : ℕ}

/-- The vector of amplitudes on the basis states whose top `depth` wires all read one, the other wires giving the index
of an amplitude. -/
noncomputable def underOnes (n depth : ℕ) (vector : List (Amplitude ℝ)) (i : Fin (2 ^ n)) : ℂ :=
  if ∀ q, n - depth ≤ q → q < n → i.val.testBit q = true then entry vector (i.val % 2 ^ (n - depth)) else 0

/-- The mask of the phase flip stands for the states whose top wires all read one. -/
lemma clearField_eq_mask_iff (hdepth : depth ≤ n) (i : Fin (2 ^ n)) :
    clearField 0 (n - depth) i = 2 ^ (n - depth) * (2 ^ depth - 1) ↔
      ∀ q, n - depth ≤ q → q < n → i.val.testBit q = true := by
  have hmask (q : ℕ) : (2 ^ (n - depth) * (2 ^ depth - 1)).testBit q = (decide (n - depth ≤ q) && decide (q < n)) := by
    rw [Nat.testBit_two_pow_mul, Nat.testBit_two_pow_sub_one]
    by_cases hq : n - depth ≤ q
    · have hlt : q - (n - depth) < depth ↔ q < n := by omega
      simp only [hq, hlt]
    · simp [hq]
  constructor
  · intro h q hlow hhigh
    have hbit := congrArg (Nat.testBit · q) h
    rw [testBit_clearField, hmask] at hbit
    simpa [hlow, hhigh, show ¬ q < n - depth by omega] using hbit
  · intro h
    apply Nat.eq_of_testBit_eq
    intro q
    rw [testBit_clearField, hmask]
    by_cases hlow : n - depth ≤ q
    · by_cases hhigh : q < n
      · simp [hlow, hhigh, h q hlow hhigh, show ¬ q < n - depth by omega]
      · simp [hhigh, Nat.testBit_lt_two_pow (i.isLt.trans_le (Nat.pow_le_pow_right Nat.two_pos (not_lt.1 hhigh)))]
    · simp [hlow, show q < n - depth by omega]

/-- Placing the entries of a vector in a block that reads one above gives the state with the vector below the ones. -/
lemma inclusion_topIndex_mulVec (h : depth + (n - depth) = n) (vector : List (Amplitude ℝ)) :
    (inclusion (topIndex h) *ᵥ fun x : Fin (2 ^ (n - depth)) => entry vector x) = underOnes n depth vector := by
  rw [← placed_eq_inclusion h]
  funext i
  rw [placed, underOnes, field_lowest]
  exact if_congr (clearField_eq_mask_iff (by omega) i) rfl rfl

namespace Compiler

variable {c : Compiler ℝ}

/-- A reflection is always emitted. If no rotation is left out, its gates lie within the register, and with their phase
they are the reflection along the vector on the basis states whose top `depth` wires all read one. -/
theorem emitReflection_operator (hcutoff : c.settings.rotationCutoff = 0) (hdepth : depth < n)
    (vector : List (Amplitude ℝ)) (hlen : vector.length = 2 ^ (n - depth))
    (hunit : ‖amplitudes (n - depth) (entry vector)‖ = 1) :
    ∃ (gates : List (ElementaryGate ℝ)) (phase : ℝ), (c.emitReflection vector depth n).Gives (.ok (gates, phase)) ∧
      (∀ g ∈ gates, g.Fits n) ∧
      exp (phase * I) • gatesOperator n gates =
        1 - (2 : ℂ) • vecMulVec (underOnes n depth vector) (star (underOnes n depth vector)) := by
  have h : depth + (n - depth) = n := Nat.add_sub_cancel' hdepth.le
  obtain ⟨gates, phase, hgives, hfits, hop⟩ := emitReflection_gives hcutoff h vector hlen hunit
  refine ⟨gates, phase, hgives, hfits, ?_⟩
  rw [hop, corner_reflection, inclusion_topIndex_mulVec h, reflection]

/-- A reflection on two wires that acts where the higher one reads one, with the standard settings but for the cutoff. -/
theorem emitReflection_operator_lower : ∃ (gates : List (ElementaryGate ℝ)) (phase : ℝ),
    ((⟨{ Settings.standard with rotationCutoff := 0 }, .standard⟩ : Compiler ℝ).emitReflection
      [.ofReal (3 / 5), .ofComplex (4 / 5 * I)] 1 2).Gives (.ok (gates, phase)) ∧
    exp (phase * I) • gatesOperator 2 gates =
      reflection fun i : Fin (2 ^ 2) => if i.val = 2 then 3 / 5 else if i.val = 3 then 4 / 5 * I else 0 := by
  have hunit : ‖amplitudes 1 (entry [.ofReal (3 / 5), .ofComplex (4 / 5 * I)])‖ = 1 := by
    rw [← sq_eq_sq₀ (norm_nonneg _) zero_le_one, norm_amplitudes_sq]
    norm_num [Finset.sum_range_succ, entry]
  obtain ⟨gates, phase, hgives, -, hop⟩ := emitReflection_operator (n := 2)
    (c := ⟨{ Settings.standard with rotationCutoff := 0 }, .standard⟩) rfl Nat.one_lt_two _ rfl hunit
  refine ⟨gates, phase, hgives, hop.trans ?_⟩
  have hvector : underOnes 2 1 [.ofReal (3 / 5), .ofComplex (4 / 5 * I)] =
      fun i : Fin (2 ^ 2) => if i.val = 2 then 3 / 5 else if i.val = 3 then 4 / 5 * I else 0 := by
    have htop (i : ℕ) : (∀ q, 2 - 1 ≤ q → q < 2 → i.testBit q = true) ↔ i.testBit 1 = true :=
      ⟨fun h => h 1 le_rfl Nat.one_lt_two, fun h q hlow hhigh => (show q = 1 by omega) ▸ h⟩
    funext i
    obtain ⟨i, hi⟩ := i
    rw [underOnes]
    simp only [htop]
    interval_cases i <;> simp [entry, Nat.testBit]
  rw [hvector, reflection]

end Compiler

end CircuitSynthesis
