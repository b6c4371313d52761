import CircuitSynthesis.Circuit.Record
import CircuitSynthesis.CommandLine.Execution
import CircuitSynthesis.Householder.Factors
import CircuitSynthesis.Main
import CircuitSynthesis.Proofs.Diagonal
import CircuitSynthesis.Proofs.Householder.Column
import CircuitSynthesis.Proofs.Householder.Steps
import CircuitSynthesis.Proofs.Householder.Splitting
import CircuitSynthesis.Proofs.Householder.Factors
import CircuitSynthesis.Proofs.Peeling
import CircuitSynthesis.Proofs.TwoQubit.Decomposition
import CircuitSynthesis.Proofs.TwoQubit.Diagonalization
import CircuitSynthesis.Proofs.TwoQubit.LocalOperators
import CircuitSynthesis.Proofs.Euler
import CircuitSynthesis.Proofs.Inverse
import CircuitSynthesis.Proofs.Lowering
import CircuitSynthesis.Proofs.Register.Operands
import CircuitSynthesis.Proofs.Statevector.Gates
import CircuitSynthesis.Proofs.TwoQubit.Fusion
import CircuitSynthesis.Proofs.TwoQubit.Gates
import CircuitSynthesis.Proofs.Circuit.Building
import CircuitSynthesis.Proofs.Circuit.Operator
import CircuitSynthesis.Proofs.Circuit.Layers
import CircuitSynthesis.Proofs.Circuit.Depth
import CircuitSynthesis.Proofs.Lookups
import CircuitSynthesis.Proofs.Placement
import CircuitSynthesis.Proofs.Outcomes
import CircuitSynthesis.Session
import CircuitSynthesis.Proofs.Sessions
import CircuitSynthesis.Proofs.Obtained
import CircuitSynthesis.Proofs.Circuit.Safety
import CircuitSynthesis.Proofs.WidthLimit
import CircuitSynthesis.Proofs.Failures
import CircuitSynthesis.Proofs.CommandLine.Verification
import CircuitSynthesis.Proofs.Reflections
import CircuitSynthesis.Proofs.Record.RoundTrip
import CircuitSynthesis.Proofs.Circuit.Reading
import CircuitSynthesis.Proofs.ProductDiagonal
import CircuitSynthesis.Proofs.NearDiagonal
import CircuitSynthesis.Proofs.Budgets
import CircuitSynthesis.Proofs.TwoQubit.FusedForm
import CircuitSynthesis.Proofs.Circuit.TensorProducts
import CircuitSynthesis.Proofs.Settings.Loading
