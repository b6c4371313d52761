import CircuitSynthesis.Circuit.Gate
import CircuitSynthesis.Decimal.Text

/-!
# Errors of synthesis

Each way in which a synthesis can fail is a cause with the data that its report shows; `SynthesisError.message` gives
the wording.

In `qsynth-compile`, `SynthesisError` is `CompileError`. What it keeps as text in `Shape`, `DegenerateDecomposition`
and `InvalidConfiguration` is told apart here.
-/

namespace CircuitSynthesis

/-- How the shape of an input can be wrong. -/
inductive ShapeFault where
  | notSquare (rows cols : Nat)
  | noQubits
  | tooManyQubits (qubits limit : Nat)
  | dimension (rows qubits : Nat)
  /-- A state to compile is not that of one qubit or more. -/
  | stateLength (length : Nat)
  /-- A diagonal to compile is not that of one qubit or more. -/
  | diagonalLength (length : Nat)
  /-- The number of amplitudes is no power of two. -/
  | amplitudeCount (length : Nat)
  /-- The number of phases is no power of two. -/
  | phaseCount (length : Nat)
  /-- A multiplexed rotation got the wrong number of angles. -/
  | angleCount (width expected got : Nat)
  | notFourByFour (rows cols : Nat)
  /-- All columns are reduced already. -/
  | noColumnLeft (rows cols : Nat)
  deriving DecidableEq

def ShapeFault.message : ShapeFault → String
  | notSquare rows cols => s!"matrix is {rows}x{cols}, expected square"
  | noQubits => "qubit count must be at least 1"
  | tooManyQubits qubits limit => s!"{qubits} qubits exceeds the configured maximum of {limit}"
  | dimension rows qubits => s!"dimension {rows} does not match 2^{qubits}"
  | stateLength length => s!"state length must be a power of two of at least 2, got {length}"
  | diagonalLength length => s!"diagonal length must be a power of two of at least 2, got {length}"
  | amplitudeCount length => s!"state length must be a power of two, got {length}"
  | phaseCount length => s!"diagonal length must be a power of two, got {length}"
  | angleCount width expected got => s!"rotation over {width} qubits needs {expected} angles, got {got}"
  | notFourByFour rows cols => s!"two-qubit operator must be 4x4, got ({rows}, {cols})"
  | noColumnLeft rows cols => s!"no column left to reduce in a {rows}x{cols} matrix"

/-- Why a factorization could not separate its factors. -/
inductive Degeneracy (R : Type) where
  | notOrthogonal (det : R)
  /-- Neither block of a supposed tensor product can be inverted. -/
  | noInvertibleBlock
  /-- What remains after one factor is taken out is not a factor. -/
  | notProduct (det : R)
  /-- Two factors do not multiply to the matrix they came from. -/
  | productResidual (error : R)
  | singular (det : R)
  /-- A local factor is a reflection. -/
  | reflection
  /-- No mixing separated the eigenspaces. -/
  | noEigenbasis (attempts : Nat)
  deriving DecidableEq

def Degeneracy.message {R : Type} [DecimalText R] : Degeneracy R → String
  | notOrthogonal det => s!"matrix is not orthogonal (det = {DecimalText.plain det})"
  | noInvertibleBlock => "no invertible block in magic-basis image"
  | notProduct det => s!"magic-basis image is not a tensor product (|det| = {DecimalText.fixed 3 det})"
  | productResidual error => s!"tensor factors rebuild with error {DecimalText.scientific 3 error}"
  | singular det => s!"two-qubit operator is singular (|det| = {DecimalText.scientific 3 det})"
  | reflection => "local factor left SO(4)"
  | noEigenbasis attempts => s!"no diagonalizing basis after {attempts} attempts"

/-- The part of a synthesis that met a value out of range. -/
inductive Stage where
  | signSolve
  | diagonal
  | statePreparation
  | householder
  | twoQubitProjection
  deriving DecidableEq

def Stage.name : Stage → String
  | signSolve => "sign solve"
  | diagonal => "diagonal"
  | statePreparation => "state preparation"
  | householder => "householder"
  | twoQubitProjection => "two-qubit projection"

/-- A number among the settings that has to be positive. -/
inductive PositiveField where
  | unitarityTolerance
  | diagonalTolerance
  | verifyTolerance
  deriving DecidableEq

def PositiveField.name : PositiveField → String
  | unitarityTolerance => "unitarity_tolerance"
  | diagonalTolerance => "diagonal_tolerance"
  | verifyTolerance => "verify_tolerance"

/-- Why settings were refused. -/
inductive SettingsFault (R : Type) where
  | notPositive (field : PositiveField) (value : R)
  /-- The rotation cutoff is negative or no number. -/
  | negativeCutoff (value : R)
  /-- No attempt at separating eigenspaces is allowed. -/
  | noRetries
  | qubitLimit (value : Nat)
  | unreadable (path reason : String)
  | malformed (detail : String)
  deriving DecidableEq

def SettingsFault.message {R : Type} [DecimalText R] : SettingsFault R → String
  | notPositive field value => s!"{field.name} must be a positive finite number, got {DecimalText.plain value}"
  | negativeCutoff value => s!"rotation_cutoff must be non-negative, got {DecimalText.plain value}"
  | noRetries => "max_degeneracy_retries must be greater than 0"
  | qubitLimit value => s!"max_qubits must be in 1..=16, got {value}"
  | unreadable path reason => s!"cannot read {path}: {reason}"
  | malformed detail => detail

/-- Why a synthesis failed. -/
inductive SynthesisError (R : Type) where
  | build (cause : BuildError)
  | shape (fault : ShapeFault)
  | notUnitary (deviation tolerance : R)
  /-- A factorization could not separate its factors. -/
  | degenerate (cause : Degeneracy R)
  /-- A norm, a residual or an angle left the finite range. -/
  | overflow (stage : Stage) (index : Nat) (value : R)
  | notNormalized (norm tolerance : R)
  | settings (fault : SettingsFault R)
  deriving DecidableEq

def SynthesisError.message {R : Type} [DecimalText R] : SynthesisError R → String
  | build cause => s!"IR error: {cause.message}"
  | shape fault => s!"Invalid shape: {fault.message}"
  | notUnitary deviation tolerance =>
    s!"Matrix is not unitary: ||UU^dag - I||_F = {DecimalText.scientific 3 deviation} exceeds " ++
      DecimalText.scientific 1 tolerance
  | degenerate cause => s!"Degenerate decomposition: {cause.message}"
  | overflow stage index value =>
    s!"Numeric overflow in {stage.name} at index {index}: {DecimalText.exponential value}"
  | notNormalized norm tolerance =>
    s!"State is not normalized: norm {DecimalText.plain norm} (tolerance {DecimalText.scientific 1 tolerance})"
  | settings fault => s!"Invalid configuration: {fault.message}"

end CircuitSynthesis
