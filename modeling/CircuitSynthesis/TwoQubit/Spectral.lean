import CircuitSynthesis.Dense
import CircuitSynthesis.SynthesisError

/-!
# Spectral kernels

The factorization of an operator on two qubits rests on two standard numerical routines and on a sequence of random
draws. `SpectralKernel` collects them, so that the factorization can be run with one implementation and reasoned about
for every accurate one.

The routines are `svd` and `symmetric_eigen` of `nalgebra`, and the draws are those of `StdRng`. In `qsynth-compile`,
`closestUnitary` is `closest_unitary` and `fourByFour` is `to_matrix4`.
-/

namespace CircuitSynthesis.TwoQubit

/-- A singular value decomposition `left · diag(values) · rightAdjoint`. -/
structure SingularFactors (R : Type) where
  left : Dense (Amplitude R) 4 4
  values : Vector R 4
  /-- The unitary factor on the right. -/
  rightAdjoint : Dense (Amplitude R) 4 4

/-- The routines on matrices of four rows, and the random draws. -/
structure SpectralKernel (R : Type) where
  /-- A singular value decomposition, unless there is none to be found. -/
  singular : Dense (Amplitude R) 4 4 → Option (SingularFactors R)
  /-- An orthonormal basis of eigenvectors of a symmetric matrix, as columns. -/
  eigenvectors : Dense R 4 4 → Dense R 4 4
  /-- The draws from `-1` to `1` that follow from a seed. -/
  draws : UInt64 → Nat → R

variable {R : Type} [Scalar R]

/-- The unitary matrix nearest to `u`, in which its singular values are replaced by one. -/
def closestUnitary (kernel : SpectralKernel R) (u : Dense (Amplitude R) 4 4) :
    Except (SynthesisError R) (Dense (Amplitude R) 4 4) :=
  match kernel.singular u with
  | some f => .ok (f.left.dot f.rightAdjoint)
  | none => .error (.overflow .twoQubitProjection 0 (0 / 0))

/-- The same matrix with its dimensions in its type. -/
def fourByFour {m n : Nat} (u : Dense (Amplitude R) m n) : Except (SynthesisError R) (Dense (Amplitude R) 4 4) :=
  if h : m = 4 ∧ n = 4 then .ok (u.cast h.1 h.2) else .error (.shape (.notFourByFour m n))

end CircuitSynthesis.TwoQubit
