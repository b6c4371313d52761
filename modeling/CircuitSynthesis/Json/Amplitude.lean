import CircuitSynthesis.Json.Value
import CircuitSynthesis.Amplitude

/-!
# Amplitudes as JSON

An amplitude is written as its two parts in a list.

This is the form of a `Complex64` in `serde_json`.
-/

namespace CircuitSynthesis.Amplitude

variable {R : Type} [Scalar R] [DecimalText R]

/-- The two parts. -/
def toJson (z : Amplitude R) : Json R := .array [.ofScalar z.re, .ofScalar z.im]

/-- Reads a list of exactly two numbers. -/
def ofJson? : Json R → Option (Amplitude R)
  | .array [re, im] => do return ⟨← re.scalar?, ← im.scalar?⟩
  | _ => none

end CircuitSynthesis.Amplitude
