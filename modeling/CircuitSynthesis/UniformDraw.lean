import CircuitSynthesis.Scalar

/-!
# Uniform draws

Random words become numbers from `-1` to `1`.

A draw is `gen_range` of `rand`, from the word of a generator.
-/

namespace CircuitSynthesis

/-- The number from `-1` to `1` that the leading 52 bits of a double word choose on an even grid. -/
def uniformOfWord {R : Type} [Scalar R] (word : UInt64) : R :=
  (((word >>> 12).toNat : Nat) : R) / ((2 ^ 52 : Nat) : R) * Scalar.two - 1

/-- A sequence of words that grows by a fixed step. -/
def steppedWord (start step : UInt64) (index : Nat) : UInt64 := start + step * index.toUInt64

end CircuitSynthesis
