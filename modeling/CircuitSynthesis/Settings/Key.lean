import CircuitSynthesis.FieldKind

/-!
# Names of settings

Each setting has a name in files, an environment variable, and a kind of number that it holds.

In `qsynth-compile` the names in files are the fields of `CompilerConfig`, and the variables are those of its
`merge_overrides`.
-/

namespace CircuitSynthesis

/-- The settings by name, in the order in which a list gives them. -/
inductive SettingsKey where
  | unitarityTolerance
  | diagonalTolerance
  | rotationCutoff
  | maxDegeneracyRetries
  | tieBreakSeed
  | verifyTolerance
  | maxQubits
  deriving DecidableEq

namespace SettingsKey

def all : List SettingsKey :=
  [unitarityTolerance, diagonalTolerance, rotationCutoff, maxDegeneracyRetries, tieBreakSeed, verifyTolerance, maxQubits]

def name : SettingsKey → String
  | unitarityTolerance => "unitarity_tolerance"
  | diagonalTolerance => "diagonal_tolerance"
  | rotationCutoff => "rotation_cutoff"
  | maxDegeneracyRetries => "max_degeneracy_retries"
  | tieBreakSeed => "tie_break_seed"
  | verifyTolerance => "verify_tolerance"
  | maxQubits => "max_qubits"

def environmentName : SettingsKey → String
  | unitarityTolerance => "QSYNTH_UNITARITY_TOLERANCE"
  | diagonalTolerance => "QSYNTH_DIAGONAL_TOLERANCE"
  | rotationCutoff => "QSYNTH_ROTATION_CUTOFF"
  | maxDegeneracyRetries => "QSYNTH_MAX_DEGENERACY_RETRIES"
  | tieBreakSeed => "QSYNTH_TIE_BREAK_SEED"
  | verifyTolerance => "QSYNTH_VERIFY_TOLERANCE"
  | maxQubits => "QSYNTH_MAX_QUBITS"

def kind : SettingsKey → FieldKind
  | maxDegeneracyRetries | maxQubits => .natural32
  | tieBreakSeed => .natural64
  | _ => .scalar

def ofName? (name : String) : Option SettingsKey := all.find? fun k => k.name == name

end SettingsKey

end CircuitSynthesis
