import CircuitSynthesis.CommandLine.Arguments
import CircuitSynthesis.CommandLine.Directory
import CircuitSynthesis.CommandLine.Files
import CircuitSynthesis.Compiler
import CircuitSynthesis.Json.Printer
import CircuitSynthesis.Program.Listing
import CircuitSynthesis.Program.Record
import CircuitSynthesis.Settings.Loading
import CircuitSynthesis.Statevector.Basic

/-!
# Executing commands

A command reads its input, loads the settings, compiles and reports. Progress goes to the error stream and results to the
output stream or to a file. A failed command keeps the lines written so far, adds its report and exits with one; refused
arguments exit with two.

In `qsynth-cli`: `compileFile`, `verifyFile`, `prepareFile` and `versionLines` are the `execute` of the commands
`compile`, `verify`, `prepare` and `version`; `readInput` is `read_source`, `readOperator` is `load_matrix`,
`readState` is `load_state`, `loadSettings` is `load_config`, `deliver` is `write_output`, and `render` chooses
between `program_json` and `program_text`.
-/

namespace CircuitSynthesis.CommandLine

/-- The surroundings of a run. -/
structure Surroundings (R : Type) where
  files : FileView
  environment : String → Option String
  kernel : TwoQubit.SpectralKernel R

/-- What a run has produced. -/
structure Console where
  output : List String
  /-- The lines of the error stream. -/
  progress : List String
  /-- The path and the text of the file that is written. -/
  written : Option (String × String)
  deriving DecidableEq

def Console.empty : Console := ⟨[], [], none⟩

/-- Why a command fails. -/
inductive Failure (R : Type) where
  | inputNotFound (path : String)
  | inputUnreadable (path : String) (fault : FileFault)
  | notOperator (path : String)
  | notState (path : String)
  | rows (fault : RowFault)
  | settings (fault : SettingsFault R)
  | compilation (path : String) (cause : SynthesisError R)
  | preparation (path : String) (cause : SynthesisError R)
  | setup (cause : SynthesisError R)
  | tooWide (qubits : Nat)
  | circuit (cause : BuildError)
  | reconstruction (cause : SimulationError)
  | comparison (cause : SimulationError)
  | mismatch (error tolerance : R)
  | outputUnwritable (path : String) (fault : FileFault)
  deriving DecidableEq

def Failure.message {R : Type} [DecimalText R] : Failure R → String
  | inputNotFound path => s!"File not found: {path}"
  | inputUnreadable path fault => s!"Failed to read file: {path}: {fault.message}"
  | notOperator path => s!"Invalid matrix file: {path}: malformed record"
  | notState path => s!"Invalid state file: {path}: malformed record"
  | rows fault => fault.message
  | settings fault =>
    "Failed to load compiler configuration: " ++ (SynthesisError.settings fault : SynthesisError R).message
  | compilation path cause => s!"Failed to compile {path}: {cause.message}"
  | preparation path cause => s!"Failed to prepare state from {path}: {cause.message}"
  | setup cause => cause.message
  | tooWide qubits => s!"{qubits} qubits exceed the verifier limit of {maxDenseQubits}"
  | circuit cause => cause.message
  | reconstruction cause => s!"Failed to reconstruct operator: {cause.message}"
  | comparison cause => cause.message
  | mismatch error tolerance =>
    s!"Verification failed: error {DecimalText.scientific 3 error} exceeds {DecimalText.scientific 1 tolerance}"
  | outputUnwritable path fault => s!"Failed to write file: {path}: {fault.message}"

/-- A command in progress. -/
abbrev Execution (R : Type) := ExceptT (Failure R) (StateM Console)

namespace Execution

variable {R : Type}

def note (line : String) : Execution R Unit :=
  modify fun console => { console with progress := console.progress ++ [line] }

def print (line : String) : Execution R Unit :=
  modify fun console => { console with output := console.output ++ [line] }

/-- Goes on with a result or fails with its cause. -/
def require {ε α : Type} (failure : ε → Failure R) : Except ε α → Execution R α
  | .ok a => pure a
  | .error cause => throw (failure cause)

/-- Goes on with a value or fails for the lack of it. -/
def demand {α : Type} (failure : Failure R) : Option α → Execution R α
  | some a => pure a
  | none => throw failure

end Execution

open Execution

variable {R : Type} [Scalar R] [DecimalText R]

/-- The text of an input. -/
def readInput (s : Surroundings R) (path : String) : Execution R String :=
  (s.files.read path |> require fun fault =>
    if fault.isAbsence then .inputNotFound path else .inputUnreadable path fault)

/-- The operator of an input, with its dimension. -/
def readOperator (s : Surroundings R) (path : String) : Execution R ((d : Nat) × Dense (Amplitude R) d d) := do
  let rows ← demand (.notOperator path) (rowsOfText? (← readInput s path))
  return ⟨rows.length, ← require .rows (operatorOfRows rows)⟩

/-- The amplitudes of an input. -/
def readState (s : Surroundings R) (path : String) : Execution R (List (Amplitude R)) := do
  demand (.notState path) (amplitudesOfText? (← readInput s path))

/-- The file with settings, if one is named by an option or else by the environment. -/
def settingsFile (s : Surroundings R) (config : Option String) : Option String :=
  config.orElse fun _ => s.environment "QSYNTH_CONFIG"

def loadSettings (s : Surroundings R) (config : Option String) : Execution R (Settings R) :=
  let file := (settingsFile s config).map fun path => (path, (s.files.read path).mapError FileFault.message)
  require .settings (Settings.load file s.environment)

/-- The result of a synthesis that begins without tables. -/
def runSynthesis {α : Type} (synthesis : Synthesis R α) : Except (SynthesisError R) α :=
  (synthesis.run.run .empty).1

/-- Puts a result into a file or on the output stream. -/
def deliver (s : Surroundings R) (content : String) : Option String → Execution R Unit
  | none => print content
  | some path => do
    match s.files.writeFault? path with
    | some fault => throw (.outputUnwritable path fault)
    | none =>
      modify fun console => { console with written := some (path, content) }
      note s!"  Output: {path}"

/-- A program in the chosen form. -/
def render (format : OutputFormat) (p : Program R) : String :=
  match format with
  | .json => p.toJson.pretty
  | .text => p.listing

/-- The line that sums up a compiled program. -/
def summaryLine (p : Program R) : String :=
  s!"  Strategy: {p.strategy.name}, {p.size} gates, {p.entanglerCount} CNOTs"

def compileFile (s : Surroundings R) (input : String) (output config : Option String) (format : OutputFormat) :
    Execution R Unit := do
  note s!"→ Compiling {input}"
  let ⟨d, u⟩ ← readOperator s input
  note s!"  Loaded: {d.log2} qubits"
  let compiler ← require .setup (Compiler.make s.kernel (← loadSettings s config))
  let program ← require (.compilation input) (runSynthesis (compiler.compile u d.log2))
  note "✓ Compilation complete"
  note (summaryLine program)
  deliver s (render format program) output

def verifyFile (s : Surroundings R) (input : String) (config : Option String) : Execution R Unit := do
  note s!"→ Verifying {input}"
  let ⟨d, u⟩ ← readOperator s input
  if maxDenseQubits < d.log2 then throw (.tooWide d.log2)
  let settings ← loadSettings s config
  let tolerance := settings.verifyTolerance
  let compiler ← require .setup (Compiler.make s.kernel settings)
  let program ← require (.compilation input) (runSynthesis (compiler.compile u d.log2))
  let rebuilt ← require .reconstruction (← require .circuit (program.toCircuit "verify")).operator
  let error ← require .comparison (phaseAlignedError u rebuilt)
  print (summaryLine program)
  print (s!"  Phase-aligned error: {DecimalText.scientific 3 error} " ++
    s!"(tolerance {DecimalText.scientific 1 tolerance})")
  if tolerance < error then throw (.mismatch error tolerance)
  print "✓ Program matches input"

/-- Prepares the state of a file. -/
def prepareFile (s : Surroundings R) (input : String) (output config : Option String) : Execution R Unit := do
  note s!"→ Preparing state from {input}"
  let amplitudes ← readState s input
  note s!"  Loaded: {amplitudes.length} amplitudes"
  let compiler ← require .setup (Compiler.make s.kernel (← loadSettings s config))
  let program ← require (.preparation input) (runSynthesis (compiler.prepareState amplitudes))
  note s!"✓ {program.size} gates, {program.entanglerCount} CNOTs on {program.width} qubits"
  deliver s (render .json program) output

def versionNumber : String := "0.3.0"

/-- The description of the components. -/
def versionLines : List String :=
  [s!"qsynth v{versionNumber} - unitary-to-circuit synthesis",
    "",
    "Components:",
    "  qsynth-ir       Circuit intermediate representation",
    "  qsynth-compile  Diagonal, two-qubit and Householder synthesis",
    "  qsynth-sim      Statevector verification engine",
    "  qsynth-cli      Command-line interface",
    "",
    "License: Apache-2.0"]

/-- The explanation of the usage. -/
def usageLines : List String :=
  ["Usage: qsynth <command> [options]",
    "",
    "Commands:",
    "  compile -i FILE [-o FILE] [-c FILE] [--format json|text]",
    "  verify  -i FILE [-c FILE]",
    "  prepare -i FILE [-o FILE] [-c FILE]",
    "  version"]

def execute (s : Surroundings R) : Command → Execution R Unit
  | .compile input output config format => compileFile s input output config format
  | .verify input config => verifyFile s input config
  | .prepare input output config => prepareFile s input output config
  | .version => versionLines.forM print
  | .versionLine => print s!"qsynth {versionNumber}"
  | .help => usageLines.forM print

structure Outcome where
  exit : Nat
  console : Console
  deriving DecidableEq

def Command.run (s : Surroundings R) (c : Command) : Outcome :=
  match (execute s c).run.run .empty with
  | (.ok (), console) => ⟨0, console⟩
  | (.error failure, console) => ⟨1, { console with progress := console.progress ++ ["Error: " ++ failure.message] }⟩

/-- Runs what the arguments ask for. -/
def run (s : Surroundings R) (arguments : List String) : Outcome :=
  match Command.ofArguments arguments with
  | .ok c => c.run s
  | .error refusal => ⟨2, ⟨[], ["error: " ++ refusal.message], none⟩⟩

/-- The files that a command reads. -/
def Command.reads (config : Option String) : Command → List String
  | .compile input _ file _ => input :: (file.orElse fun _ => config).toList
  | .verify input file => input :: (file.orElse fun _ => config).toList
  | .prepare input _ file => input :: (file.orElse fun _ => config).toList
  | _ => []

end CircuitSynthesis.CommandLine
