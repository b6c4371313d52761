import CircuitSynthesis.Program
import CircuitSynthesis.Decimal.Text

/-!
# Program listings

The text form of a program: three comment lines with the strategy, the width and the global phase, then a line per gate.
Angles have twelve digits after the point and matrix entries nine. There is no newline at the end.

In `qsynth-cli`, the listing of a program is `program_text` and that of a gate is `gate_text`.
-/

namespace CircuitSynthesis

variable {R : Type} [DecimalText R]

/-- An amplitude in a listing. -/
def Amplitude.listing (z : Amplitude R) : String := DecimalText.fixed 9 z.re ++ DecimalText.signedFixed 9 z.im ++ "i"

def ElementaryGate.listing : ElementaryGate R → String
  | unitary wire u =>
    let entries := [u.a, u.b, u.c, u.d].map Amplitude.listing
    s!"u q[{wire}] [" ++ ", ".intercalate entries ++ "]"
  | rotation wire axis angle => s!"r{axis.name}(" ++ DecimalText.fixed 12 angle ++ s!") q[{wire}]"
  | entangler control target => s!"cx q[{control}], q[{target}]"

def Program.listingLines (p : Program R) : List String :=
  [s!"# strategy: {p.strategy.name}", s!"# qubits: {p.width}", "# global_phase: " ++ DecimalText.fixed 12 p.phase] ++
    p.gates.map ElementaryGate.listing

/-- The text of a program. -/
def Program.listing (p : Program R) : String := "\n".intercalate p.listingLines

end CircuitSynthesis
