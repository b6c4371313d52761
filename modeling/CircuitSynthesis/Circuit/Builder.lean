import CircuitSynthesis.Circuit.Basic

/-!
# Building in place

A circuit under construction is changed in place, call by call. A call that fails may have written to the circuit before
it failed; what it wrote would stay.

In `qsynth-ir` these are the calls of `Circuit` that change it: `apply` (here `push`), `gate`, `unitary`, `append`,
`add_global_phase` and `set_global_phase`.
-/

namespace CircuitSynthesis

/-- A call of the builder. It may fail, and the circuit is what it left in either case. -/
abbrev Building (R : Type) := ExceptT BuildError (StateM (Circuit R))

namespace Building

variable {R : Type}

/-- Whether a call on a circuit succeeds. -/
def outcome (call : Building R Unit) (c : Circuit R) : Except BuildError Unit := (call.run c).run.1

/-- The circuit after a call, whether it succeeded or failed. -/
def left (call : Building R Unit) (c : Circuit R) : Circuit R := (call.run c).run.2

def push (op : Instruction R) : Building R Unit := do
  let c ← get
  op.check c.width
  modify fun c => { c with instructions := c.instructions.push op }

def gate (g : Gate R) (wires : List Nat) : Building R Unit := push ⟨g, wires⟩

def unitary (entries : Array (Amplitude R)) (wire : Nat) : Building R Unit := do
  let g ← MatrixGate.make "unitary" 1 entries
  gate (.matrix g) [wire]

/-- Adds all instructions of another circuit, then its phase. -/
def append [Add R] (d : Circuit R) : Building R Unit := do
  let c ← get
  if d.width ≠ c.width then throw (.widthMismatch c.width d.width)
  modify fun c => { c with instructions := c.instructions ++ d.instructions }
  modify fun c => { c with phase := c.phase + d.phase }

def addPhase [Add R] (phase : R) : Building R Unit := modify fun c => { c with phase := c.phase + phase }

def setPhase (phase : R) : Building R Unit := modify fun c => { c with phase }

end Building

end CircuitSynthesis
