import CircuitSynthesis.Circuit.Gate

/-!
# Circuits

A circuit is an ordered list of instructions over a fixed number of wires and a global phase that multiplies the
operator. Instructions enter it through `push`, which checks their operands; a refused instruction leaves no trace,
since the old circuit is still at hand. `layers` schedules the instructions, each in the first layer after all those it
shares a wire with.

In `qsynth-ir`, for `Circuit`: `empty` is `new`, `push` is `apply`, `addPhase` and `setPhase` are `add_global_phase`
and `set_global_phase`, `countNames` is `count_ops`, `multiQubitCount` is `num_multi_qubit_gates`, and `standard`
stands for the calls named after a gate, `h` to `swap`. `gate`, `unitary`, `append`, `layers` and `depth` have their
names there.
-/

namespace CircuitSynthesis

/-- An ordered list of gates on a number of wires, with a global phase. -/
structure Circuit (R : Type) where
  name : String
  width : Nat
  /-- The instructions in the order in which they act. -/
  instructions : Array (Instruction R)
  /-- The global phase in radians. -/
  phase : R
  deriving DecidableEq

namespace Circuit

variable {R : Type}

def empty [Zero R] (name : String) (width : Nat) : Circuit R := ⟨name, width, #[], 0⟩

/-- Adds an instruction at the end once its operands are accepted. -/
def push (c : Circuit R) (op : Instruction R) : Except BuildError (Circuit R) := do
  op.check c.width
  return { c with instructions := c.instructions.push op }

def gate (c : Circuit R) (g : Gate R) (wires : List Nat) : Except BuildError (Circuit R) := c.push ⟨g, wires⟩

def standard (c : Circuit R) (g : StandardGate R) (wires : List Nat) : Except BuildError (Circuit R) :=
  c.gate (.standard g) wires

def unitary (c : Circuit R) (entries : Array (Amplitude R)) (wire : Nat) : Except BuildError (Circuit R) := do
  let g ← MatrixGate.make "unitary" 1 entries
  c.gate (.matrix g) [wire]

/-- Adds all instructions of another circuit of the same width, and its phase. -/
def append [Add R] (c d : Circuit R) : Except BuildError (Circuit R) :=
  if d.width = c.width then
    .ok { c with instructions := c.instructions ++ d.instructions, phase := c.phase + d.phase }
  else .error (.widthMismatch c.width d.width)

def addPhase [Add R] (c : Circuit R) (phase : R) : Circuit R := { c with phase := c.phase + phase }

def setPhase (c : Circuit R) (phase : R) : Circuit R := { c with phase }

def size (c : Circuit R) : Nat := c.instructions.size

/-- How often each gate name occurs, in the order of first occurrence. -/
def countNames (c : Circuit R) : List (String × Nat) :=
  let names := (c.instructions.map Instruction.name).toList
  names.eraseDups.map fun name => (name, names.count name)

def multiQubitCount (c : Circuit R) : Nat := (c.instructions.filter Instruction.isMultiQubit).size

/-- A partial schedule: how many layers each wire has used, and the layers so far. -/
structure Schedule where
  /-- The number of layers up to the last one that touches each wire. -/
  used : Array Nat
  /-- The indices of the instructions of each layer. -/
  layers : Array (Array Nat)

/-- The first layer that comes after every use of the given wires. -/
def Schedule.levelOf (s : Schedule) (wires : List Nat) : Nat :=
  wires.foldl (fun level q => max level (s.used.getD q 0)) 0

/-- Puts the instruction of an index into its layer. -/
def Schedule.place (s : Schedule) (index : Nat) (wires : List Nat) : Schedule :=
  let level := s.levelOf wires
  let layers := if level = s.layers.size then s.layers.push #[] else s.layers
  ⟨wires.foldl (fun used q => used.setIfInBounds q (level + 1)) s.used, layers.modify level (·.push index)⟩

/-- The schedule of the leading instructions of a circuit. -/
def schedule (c : Circuit R) : Schedule :=
  c.instructions.toList.zipIdx.foldl (fun s (op, index) => s.place index op.wires) ⟨Array.replicate c.width 0, #[]⟩

/-- The indices of the instructions, layer by layer; the wires of one layer are disjoint. -/
def layers (c : Circuit R) : List (List Nat) := (c.schedule.layers.map Array.toList).toList

def depth (c : Circuit R) : Nat := c.layers.length

end Circuit

end CircuitSynthesis
