import CircuitSynthesis.TwoQubit.Jacobi
import CircuitSynthesis.TwoQubit.Keystream

/-!
# The standard kernel

Jacobi iterations for the spectral routines and the seeded keystream for the draws.
-/

namespace CircuitSynthesis.TwoQubit

/-- The kernel that programs are run with. -/
def SpectralKernel.standard {R : Type} [Scalar R] : SpectralKernel R where
  singular u := some (Jacobi.singular u)
  eigenvectors := Jacobi.eigenvectors
  draws := Keystream.draws

end CircuitSynthesis.TwoQubit
