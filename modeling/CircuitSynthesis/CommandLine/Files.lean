import CircuitSynthesis.Json.Parser
import CircuitSynthesis.Json.Amplitude
import CircuitSynthesis.Dense
import CircuitSynthesis.Diagonal

/-!
# Input files

An operator is a record with the field `rows`, a list of rows of amplitudes; a state is a record with the field
`amplitudes`. Other fields are passed over.

In `qsynth-cli` the records are `MatrixFile` and `StateFile`; `operatorOfRows` makes the checks of `load_matrix`.
-/

namespace CircuitSynthesis.CommandLine

variable {R : Type} [Scalar R] [DecimalText R]

/-- Reads the value of the field of interest, which must not have been met before. -/
def readWanted (found : Option (Json R)) (cs : List Char) :
    Except Json.Reader.Fault (Option (Json R) × List Char) := do
  if found.isSome then throw .malformed
  let (v, rest) ← Json.Reader.value (cs.length + 1) cs
  return (some v, rest)

/-- Reads the value of a member as soon as its name is known. Other fields than the one of interest are passed over. -/
def readMember (wanted : String) (found : Option (Json R)) (name : String) (cs : List Char) :
    Except Json.Reader.Fault (Option (Json R) × List Char) :=
  if name = wanted then readWanted found cs else do return (found, ← Json.Reader.skip cs)

/-- Reads a record that has one field of interest, given by name or as the only element. -/
def fieldOf? (name text : String) : Option (Json R) :=
  (Json.Reader.record (readMember name) readWanted none text.toList).toOption.join

def rowsOfText? (text : String) : Option (List (List (Amplitude R))) := do
  (← fieldOf? "rows" text).list? (Json.list? Amplitude.ofJson?)

def amplitudesOfText? (text : String) : Option (List (Amplitude R)) := do
  (← fieldOf? "amplitudes" text).list? Amplitude.ofJson?

/-- Why rows do not make up the operator of a number of qubits. -/
inductive RowFault where
  | count (rows : Nat)
  | length (row entries expected : Nat)
  deriving DecidableEq

def RowFault.message : RowFault → String
  | count rows => s!"Matrix dimension {rows} is not a positive power of two"
  | length row entries expected => s!"Row {row} has {entries} entries, expected {expected}"

/-- The operator of a list of rows. -/
def operatorOfRows (rows : List (List (Amplitude R))) : Except RowFault (Dense (Amplitude R) rows.length rows.length) :=
  if isPowerOfTwo rows.length then
    match rows.zipIdx.find? fun (row, _) => row.length != rows.length with
    | some (row, index) => .error (.length index row.length rows.length)
    | none =>
      match Dense.ofRows? rows.length rows.length rows with
      | some u => .ok u
      | none => .error (.count rows.length)
  else .error (.count rows.length)

end CircuitSynthesis.CommandLine
