/-!
# Numerals

Instances behind powers of natural numbers and behind the literal indices of matrices with two or four rows. Their
priority is high, so that a definition is the same term also where another library offers instances of equal value.
-/

namespace CircuitSynthesis

/-- Powers of natural numbers. -/
@[default_instance 20000] instance (priority := 2000) naturalPower : Pow Nat Nat := instPowNat

/-- Two is not zero. -/
instance (priority := 2000) neZeroTwo : @NeZero Nat Zero.ofOfNat0 2 := ⟨by decide⟩

/-- Four is not zero. -/
instance (priority := 2000) neZeroFour : @NeZero Nat Zero.ofOfNat0 4 := ⟨by decide⟩

end CircuitSynthesis
