import CircuitSynthesis.Program.Record

/-!
# Circuits as records

The form in which circuits are stored. A gate is an object with one key, which tells a fixed gate from a matrix. A fixed
gate has a name and, if it is a rotation, an angle. Operands and the number of matrix entries are not checked on reading.

In `qsynth-ir` these are `Serialize` and `Deserialize` of `StandardGate`, `MatrixGate`, `Gate`, `Instruction` and
`Circuit`.
-/

namespace CircuitSynthesis

variable {R : Type} [Scalar R] [DecimalText R]

namespace StandardGate

def toJson (g : StandardGate R) : Json R :=
  match g.angle? with
  | some t => .object [("name", .string g.name), ("angle", .ofScalar t)]
  | none => .object [("name", .string g.name)]

/-- Reads a name and what may stand for its angle: a number for a rotation, and nothing or null for any other gate. -/
def ofNameAndAngle? (name : String) (angle : Option (Json R)) : Option (StandardGate R) :=
  match ofRotationName? name with
  | some rotation => do return rotation (← (← angle).scalar?)
  | none =>
    match angle with
    | none | some .null => ofName? name
    | _ => none

def ofJson? : Json R → Option (StandardGate R)
  | .object members => do
    let name ← (← Json.exactlyOne? members "name").word?
    ofNameAndAngle? name (← Json.atMostOne? members "angle")
  | .array [name, angle] => do ofNameAndAngle? (← name.string?) (some angle)
  | _ => none

end StandardGate

namespace MatrixGate

def toJson (g : MatrixGate R) : Json R :=
  .object [("name", .string g.name), ("num_qubits", .ofNat g.arity),
    ("matrix", .array (g.entries.toList.map Amplitude.toJson))]

def ofJson? (v : Json R) : Option (MatrixGate R) := do
  match ← v.fields? ["name", "num_qubits", "matrix"] with
  | [name, arity, entries] =>
    return ⟨← name.string?, ← arity.nat? wireBound, (← entries.list? Amplitude.ofJson?).toArray⟩
  | _ => none

end MatrixGate

namespace Gate

def toJson : Gate R → Json R
  | standard g => .object [("standard", g.toJson)]
  | matrix g => .object [("matrix", g.toJson)]

def ofJson? : Json R → Option (Gate R)
  | .object [("standard", v)] => do return standard (← StandardGate.ofJson? v)
  | .object [("matrix", v)] => do return matrix (← MatrixGate.ofJson? v)
  | _ => none

end Gate

namespace Instruction

def toJson (op : Instruction R) : Json R :=
  .object [("gate", op.gate.toJson), ("qubits", .array (op.wires.map Json.ofNat))]

def ofJson? (v : Json R) : Option (Instruction R) := do
  match ← v.fields? ["gate", "qubits"] with
  | [gate, wires] => return ⟨← Gate.ofJson? gate, ← wires.list? (Json.nat? wireBound)⟩
  | _ => none

end Instruction

namespace Circuit

def toJson (c : Circuit R) : Json R :=
  .object [("name", .string c.name), ("num_qubits", .ofNat c.width),
    ("instructions", .array (c.instructions.toList.map Instruction.toJson)), ("global_phase", .ofScalar c.phase)]

def ofJson? (v : Json R) : Option (Circuit R) := do
  match ← v.fields? ["name", "num_qubits", "instructions", "global_phase"] with
  | [name, width, instructions, phase] =>
    return ⟨← name.string?, ← width.nat? wireBound, (← instructions.list? Instruction.ofJson?).toArray,
      ← phase.scalar?⟩
  | _ => none

end Circuit

end CircuitSynthesis
