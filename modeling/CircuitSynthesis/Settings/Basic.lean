import CircuitSynthesis.SynthesisError
import CircuitSynthesis.Scalar

/-!
# Settings

The numerical settings of synthesis, their defaults and the conditions they have to meet.

In `qsynth-compile` the type is `CompilerConfig`: `standard` is its `default` and `check` its `validate`.
-/

namespace CircuitSynthesis

/-- The settings of synthesis. -/
structure Settings (R : Type) where
  /-- The deviation from unitarity that is accepted. -/
  unitarityTolerance : R
  /-- The off-diagonal modulus below which a matrix counts as diagonal. -/
  diagonalTolerance : R
  /-- Rotations by smaller angles are left out. -/
  rotationCutoff : R
  /-- How many mixings are tried to separate eigenspaces. -/
  maxDegeneracyRetries : UInt32
  /-- The seed of the mixings. -/
  tieBreakSeed : UInt64
  /-- The error accepted when a program is verified. -/
  verifyTolerance : R
  /-- The most qubits an operator may have. -/
  maxQubits : UInt32
  deriving DecidableEq

namespace Settings

variable {R : Type} [Scalar R]

/-- The settings in force where nothing else is said. -/
def standard : Settings R where
  unitarityTolerance := 1e-8
  diagonalTolerance := 1e-10
  rotationCutoff := 1e-12
  maxDegeneracyRetries := 100
  tieBreakSeed := 2023
  verifyTolerance := 1e-6
  maxQubits := 12

/-- Accepts a positive finite number. -/
def checkPositive (field : PositiveField) (value : R) : Except (SettingsFault R) Unit :=
  if !Scalar.isFinite value || value ≤ 0 then .error (.notPositive field value) else .ok ()

/-- Accepts settings that synthesis can work with. -/
def check (s : Settings R) : Except (SettingsFault R) Unit := do
  checkPositive .unitarityTolerance s.unitarityTolerance
  checkPositive .diagonalTolerance s.diagonalTolerance
  checkPositive .verifyTolerance s.verifyTolerance
  if !Scalar.isFinite s.rotationCutoff || s.rotationCutoff < 0 then throw (.negativeCutoff s.rotationCutoff)
  if s.maxDegeneracyRetries = 0 then throw .noRetries
  if s.maxQubits = 0 ∨ 16 < s.maxQubits then throw (.qubitLimit s.maxQubits.toNat)

end Settings

end CircuitSynthesis
