import Mathlib
import CircuitSynthesis.Compiler
import CircuitSynthesis.Proofs.Exact.Scalar
import CircuitSynthesis.Proofs.Loops

/-!
# Accepted settings

`Settings.check_eq_ok_iff` lists what the check of settings asks for. Over the real numbers every number is finite, so that
only the signs matter.
-/

namespace CircuitSynthesis

namespace Settings

section Scalars

variable {R : Type} [Scalar R] {field : PositiveField} {value : R} {s : Settings R}

/-- Whether a setting is a positive number of finite size. -/
def IsPositive (value : R) : Prop := Scalar.isFinite value = true ∧ ¬ value ≤ 0

/-- The check of a tolerance passes exactly if it is a positive number of finite size. -/
lemma checkPositive_eq_ok_iff : checkPositive field value = .ok () ↔ IsPositive value := by
  rw [checkPositive, IsPositive]
  by_cases hfinite : Scalar.isFinite value = true
  case neg => simp [hfinite]
  case pos => simp [hfinite]

/-- Settings pass if the tolerances are positive, the cutoff is not negative, a retry is allowed and the limit on qubits is
in its range. -/
theorem check_eq_ok_iff :
    s.check = .ok () ↔ IsPositive s.unitarityTolerance ∧ IsPositive s.diagonalTolerance ∧ IsPositive s.verifyTolerance ∧
      ¬ (!Scalar.isFinite s.rotationCutoff || decide (s.rotationCutoff < 0)) = true ∧ ¬ s.maxDegeneracyRetries = 0 ∧
      ¬ (s.maxQubits = 0 ∨ 16 < s.maxQubits) := by
  rw [check, check_bind_eq_ok_iff, check_bind_eq_ok_iff, check_bind_eq_ok_iff, guard_bind_eq_ok_iff, guard_bind_eq_ok_iff,
    guard_eq_ok_iff, checkPositive_eq_ok_iff, checkPositive_eq_ok_iff, checkPositive_eq_ok_iff]

end Scalars

section Reals

/-- A real tolerance only has to be positive. -/
lemma isPositive_real {value : ℝ} : IsPositive value ↔ 0 < value := by
  rw [IsPositive, not_le]
  exact and_iff_right rfl

/-- The standard settings pass under every cutoff that is not negative and every limit on qubits that is in its range. -/
lemma check_standard_of_cutoff {cutoff : ℝ} (hcutoff : 0 ≤ cutoff) {limit : UInt32} (h : ¬ (limit = 0 ∨ 16 < limit)) :
    ({ standard with rotationCutoff := cutoff, maxQubits := limit } : Settings ℝ).check = .ok () := by
  rw [check_eq_ok_iff, isPositive_real, isPositive_real, isPositive_real]
  change (0 : ℝ) < 1e-8 ∧ (0 : ℝ) < 1e-10 ∧ (0 : ℝ) < 1e-6 ∧ ¬ (!true || decide (cutoff < 0)) = true ∧
    ¬ (100 : UInt32) = 0 ∧ ¬ (limit = 0 ∨ 16 < limit)
  refine ⟨by norm_num, by norm_num, by norm_num, ?_, by decide, h⟩
  simpa using hcutoff

/-- The standard settings pass under every limit on qubits that is in its range. -/
lemma check_standard {limit : UInt32} (h : ¬ (limit = 0 ∨ 16 < limit)) :
    ({ standard with maxQubits := limit } : Settings ℝ).check = .ok () :=
  check_standard_of_cutoff (by norm_num : (0 : ℝ) ≤ 1e-12) h

end Reals

end Settings

namespace Compiler

variable {R : Type} [Scalar R] {kernel : TwoQubit.SpectralKernel R} {settings : Settings R} {c : Compiler R}

/-- A compiler is made exactly from settings that pass. -/
lemma make_eq_ok_iff : make kernel settings = .ok c ↔ settings.check = .ok () ∧ c = ⟨settings, kernel⟩ := by
  rw [make]
  cases settings.check with
  | error fault => exact iff_of_false nofun fun h => nomatch h.1
  | ok _ => exact ⟨fun h => ⟨rfl, (Except.ok.inj h).symm⟩, fun h => congrArg Except.ok h.2.symm⟩

/-- The limit of a compiler is sixteen qubits at most. -/
lemma maxQubits_le_of_make (h : make kernel settings = .ok c) : c.settings.maxQubits.toNat ≤ 16 := by
  obtain ⟨hcheck, rfl⟩ := make_eq_ok_iff.1 h
  obtain ⟨-, -, -, -, -, hlimit⟩ := Settings.check_eq_ok_iff.1 hcheck
  exact UInt32.le_iff_toNat_le.1 (UInt32.not_lt.1 fun hlt => hlimit (.inr hlt))

end Compiler

end CircuitSynthesis
