import Mathlib
import CircuitSynthesis.Numerals

/-!
# Numerals of numbers with a two

The literal `2` of a type of numbers rests on the fact that two is at least two. It is given a name here, so that a
definition with that literal is the same term wherever it stands.
-/

namespace CircuitSynthesis

/-- Two is at least two. -/
instance (priority := 2000) atLeastTwoTwo : Nat.AtLeastTwo 2 := ⟨le_rfl⟩

end CircuitSynthesis
