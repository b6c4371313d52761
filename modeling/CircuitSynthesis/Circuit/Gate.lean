import CircuitSynthesis.Amplitude

/-!
# Gates of a circuit

The fixed gates that a simulator knows by name, gates given by a matrix, and a gate placed on an ordered list of wires.
Wires are numbered from zero and wire `w` is bit `w` of a basis state's index.

In `qsynth-ir`: `StandardGate`, `MatrixGate`, `Gate` and `Instruction`, with `num_qubits` as `arity` and the `new` of
`MatrixGate` as `make`. `Instruction.check` is the `validate` of `Circuit`, and `BuildError` is `IrError`.
-/

namespace CircuitSynthesis

/-- The fixed gates. A rotation by `t` about the axis of `A` is `exp(-i·t·A/2)`. -/
inductive StandardGate (R : Type) where
  | x
  | y
  | z
  | h
  /-- The diagonal gate with entries `1, i`. -/
  | s
  /-- The diagonal gate with entries `1, -i`. -/
  | sdg
  | rx (angle : R)
  | ry (angle : R)
  | rz (angle : R)
  /-- The controlled-NOT; its operands are the control and the target. -/
  | cx
  | cz
  | swap
  deriving DecidableEq

namespace StandardGate

variable {R : Type}

def name : StandardGate R → String
  | x => "x"
  | y => "y"
  | z => "z"
  | h => "h"
  | s => "s"
  | sdg => "sdg"
  | rx _ => "rx"
  | ry _ => "ry"
  | rz _ => "rz"
  | cx => "cx"
  | cz => "cz"
  | swap => "swap"

def arity : StandardGate R → Nat
  | cx | cz | swap => 2
  | _ => 1

/-- The rotation angle, for a gate that has one. -/
def angle? : StandardGate R → Option R
  | rx t | ry t | rz t => some t
  | _ => none

/-- The gate of a mnemonic that takes no angle. -/
def ofName? : String → Option (StandardGate R)
  | "x" => some x
  | "y" => some y
  | "z" => some z
  | "h" => some h
  | "s" => some s
  | "sdg" => some sdg
  | "cx" => some cx
  | "cz" => some cz
  | "swap" => some swap
  | _ => none

/-- The rotation of a mnemonic that takes an angle. -/
def ofRotationName? : String → Option (R → StandardGate R)
  | "rx" => some rx
  | "ry" => some ry
  | "rz" => some rz
  | _ => none

end StandardGate

inductive BuildError where
  | wireNotFound (gate : String) (wire width : Nat)
  | operandCount (gate : String) (expected got : Nat)
  | repeatedWire (gate : String) (wire : Nat)
  | entryCount (gate : String) (expected got : Nat)
  | widthMismatch (expected got : Nat)
  deriving DecidableEq

def BuildError.message : BuildError → String
  | wireNotFound gate wire width => s!"Gate '{gate}' addresses q{wire}, outside a {width}-qubit circuit"
  | operandCount gate expected got => s!"Gate '{gate}' requires {expected} qubits, got {got}"
  | repeatedWire gate wire => s!"Gate '{gate}' uses q{wire} more than once"
  | entryCount gate expected got => s!"Matrix for '{gate}' has {got} entries, expected {expected}"
  | widthMismatch expected got => s!"Circuit width mismatch: expected {expected} qubits, got {got}"

/-- A gate given by a square matrix in row-major order; operand `k` is bit `k` of the matrix index. -/
structure MatrixGate (R : Type) where
  name : String
  arity : Nat
  /-- The entries, row by row. -/
  entries : Array (Amplitude R)
  deriving DecidableEq

/-- A matrix gate whose entries are counted. -/
def MatrixGate.make {R : Type} (name : String) (arity : Nat) (entries : Array (Amplitude R)) :
    Except BuildError (MatrixGate R) :=
  let expected := 2 ^ arity * 2 ^ arity
  if entries.size = expected then .ok ⟨name, arity, entries⟩ else .error (.entryCount name expected entries.size)

inductive Gate (R : Type) where
  | standard (gate : StandardGate R)
  | matrix (gate : MatrixGate R)
  deriving DecidableEq

namespace Gate

variable {R : Type}

def name : Gate R → String
  | standard g => g.name
  | matrix g => g.name

def arity : Gate R → Nat
  | standard g => g.arity
  | matrix g => g.arity

end Gate

/-- A gate on an ordered list of wires. -/
structure Instruction (R : Type) where
  gate : Gate R
  /-- The wires, in the order of the gate's operands. -/
  wires : List Nat
  deriving DecidableEq

namespace Instruction

variable {R : Type}

def name (op : Instruction R) : String := op.gate.name

def isMultiQubit (op : Instruction R) : Bool := 1 < op.wires.length

/-- The first fault among the operands of a gate, given those that were passed already. -/
def findFault? (gate : String) (width : Nat) : List Nat → List Nat → Option BuildError
  | _, [] => none
  | seen, q :: rest =>
    if width ≤ q then some (.wireNotFound gate q width)
    else if q ∈ seen then some (.repeatedWire gate q)
    else findFault? gate width (q :: seen) rest

/-- Accepts an instruction whose operands are as many as its gate takes, in range and distinct. -/
def check (op : Instruction R) (width : Nat) : Except BuildError Unit :=
  if op.gate.arity = op.wires.length then
    match findFault? op.name width [] op.wires with
    | some fault => .error fault
    | none => .ok ()
  else .error (.operandCount op.name op.gate.arity op.wires.length)

end Instruction

end CircuitSynthesis
