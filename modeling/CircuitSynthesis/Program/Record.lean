import CircuitSynthesis.Program
import CircuitSynthesis.Json.Amplitude

/-!
# Programs as records

The form in which programs are stored. A gate is an object whose `kind` tells its other fields, or a list that begins
with the kind. Nothing is checked on reading but the types of the fields and the size of wire numbers.

In `qsynth-compile` these are `Serialize` and `Deserialize` of `Unitary2x2`, `RotationAxis`, `EmittedGate`, `Strategy`
and `Program`.
-/

namespace CircuitSynthesis

variable {R : Type} [Scalar R] [DecimalText R]

/-- Wire numbers and widths have 32 bits. -/
def wireBound : Nat := 2 ^ 32

def Matrix2.toJson (u : Matrix2 R) : Json R := .object [("data", .array (u.entries.map Amplitude.toJson))]

/-- Reads the four entries of a matrix. -/
def Matrix2.ofEntries? : List (Amplitude R) → Option (Matrix2 R)
  | [a, b, c, d] => some ⟨a, b, c, d⟩
  | _ => none

def Matrix2.ofJson? (v : Json R) : Option (Matrix2 R) := do
  match ← v.fields? ["data"] with
  | [data] => Matrix2.ofEntries? (← data.list? Amplitude.ofJson?)
  | _ => none

def Axis.ofName? : String → Option Axis
  | "y" => some y
  | "z" => some z
  | _ => none

namespace ElementaryGate

def toJson : ElementaryGate R → Json R
  | unitary wire matrix => .object [("kind", .string "unitary"), ("wire", .ofNat wire), ("matrix", matrix.toJson)]
  | rotation wire axis angle =>
    .object [("kind", .string "rotation"), ("wire", .ofNat wire), ("axis", .string axis.name), ("angle", .ofScalar angle)]
  | entangler control target =>
    .object [("kind", .string "entangler"), ("control", .ofNat control), ("target", .ofNat target)]

/-- Reads the fields of a gate of a given kind. -/
def ofFields? (kind : String) (fields : Json R) : Option (ElementaryGate R) :=
  match kind with
  | "unitary" => do
    match ← fields.fields? ["wire", "matrix"] with
    | [wire, matrix] => return unitary (← wire.nat? wireBound) (← Matrix2.ofJson? matrix)
    | _ => none
  | "rotation" => do
    match ← fields.fields? ["wire", "axis", "angle"] with
    | [wire, axis, angle] =>
      return rotation (← wire.nat? wireBound) (← Axis.ofName? (← axis.markedWord?)) (← angle.scalar?)
    | _ => none
  | "entangler" => do
    match ← fields.fields? ["control", "target"] with
    | [control, target] => return entangler (← control.nat? wireBound) (← target.nat? wireBound)
    | _ => none
  | _ => none

def ofJson? : Json R → Option (ElementaryGate R)
  | .object members => do ofFields? (← (← Json.exactlyOne? members "kind").string?) (.object members)
  | .array (kind :: fields) => do ofFields? (← kind.string?) (.array fields)
  | _ => none

end ElementaryGate

namespace Strategy

def recordName : Strategy → String
  | singleQubit => "single_qubit"
  | diagonal => "diagonal"
  | twoQubit => "two_qubit"
  | general => "general"
  | statePreparation => "state_preparation"

def ofRecordName? : String → Option Strategy
  | "single_qubit" => some singleQubit
  | "diagonal" => some diagonal
  | "two_qubit" => some twoQubit
  | "general" => some general
  | "state_preparation" => some statePreparation
  | _ => none

end Strategy

namespace Program

def toJson (p : Program R) : Json R :=
  .object [("num_qubits", .ofNat p.width), ("gates", .array (p.gates.map ElementaryGate.toJson)),
    ("global_phase", .ofScalar p.phase), ("strategy", .string p.strategy.recordName)]

def ofJson? (v : Json R) : Option (Program R) := do
  match ← v.fields? ["num_qubits", "gates", "global_phase", "strategy"] with
  | [width, gates, phase, strategy] =>
    return ⟨← width.nat? wireBound, ← gates.list? ElementaryGate.ofJson?, ← phase.scalar?,
      ← Strategy.ofRecordName? (← strategy.word?)⟩
  | _ => none

end Program

end CircuitSynthesis
