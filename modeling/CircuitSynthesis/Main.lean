import CircuitSynthesis.Binary64
import CircuitSynthesis.CommandLine.Execution
import CircuitSynthesis.TwoQubit.StandardKernel

/-!
# The program

Arguments, environment and files are read, the run is computed, and its outcome is carried out. Whether the result can
be written shows only when it is tried, so a run whose result was refused is computed once more with the refusal known.

In `qsynth-cli` this is `main`.
-/

namespace CircuitSynthesis.CommandLine

/-- The fault behind an error of the system. -/
def FileFault.ofError : IO.Error → FileFault
  | .noFileOrDirectory _ _ _ => .notFound
  | .inappropriateType _ code text => ofCode code text
  | .invalidArgument _ code text => ofCode code text
  | .permissionDenied _ code text => ofCode code text
  | .otherError code text => ofCode code text
  | e => .other (toString e)
where
  /-- The fault of an error code. -/
  ofCode (code : UInt32) (text : String) : FileFault :=
    if code = 2 then .notFound
    else if code = 20 then .notDirectory
    else if code = 21 then .isDirectory
    else if code = 36 then .nameTooLong
    else .other s!"{text} (os error {code})"

def readDisk (path : String) : IO (Except FileFault String) := do
  try return .ok (← IO.FS.readFile path) catch e => return .error (.ofError e)

def writeDisk (path text : String) : IO (Option FileFault) := do
  try
    IO.FS.writeFile path text
    return none
  catch e => return some (.ofError e)

/-- The environment variables that matter. -/
def variableNames : List String := "QSYNTH_CONFIG" :: SettingsKey.all.map SettingsKey.environmentName

/-- The files that the arguments refer to. -/
def filesToRead (arguments : List String) (config : Option String) : List String :=
  match Command.ofArguments arguments with
  | .ok c => c.reads config
  | .error _ => []

/-- Carries out the outcome of a run. -/
def Outcome.show (o : Outcome) : IO UInt32 := do
  let out ← IO.getStdout
  let err ← IO.getStderr
  for line in o.console.progress do err.putStrLn line
  for line in o.console.output do out.putStrLn line
  return o.exit.toUInt32

end CircuitSynthesis.CommandLine

open CircuitSynthesis CircuitSynthesis.CommandLine in
/-- Runs the command that the arguments ask for. -/
def main (arguments : List String) : IO UInt32 := do
  let environment ← variableNames.filterMapM fun name => do return (← IO.getEnv name).map fun value => (name, value)
  let contents ← (filesToRead arguments (environment.lookup "QSYNTH_CONFIG")).mapM fun path => do
    return (path, ← readDisk path)
  let outcome (fault : Option FileFault) : Outcome :=
    let files : FileView := ⟨fun path => (contents.lookup path).getD (.error .notFound), fun _ => fault⟩
    let kernel : TwoQubit.SpectralKernel Float := .standard
    run ⟨files, fun name => environment.lookup name, kernel⟩ arguments
  let first := outcome none
  match first.console.written with
  | none => first.show
  | some (path, text) =>
    match ← writeDisk path text with
    | none => first.show
    | some fault => (outcome (some fault)).show
