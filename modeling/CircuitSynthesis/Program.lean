import CircuitSynthesis.Circuit.Basic
import CircuitSynthesis.Matrix2

/-!
# Programs

A program is what synthesis produces: one-wire matrices, rotations about two axes and controlled-NOTs in the order in
which they act, and a global phase. Programs are inverted, lowered to rotations alone, and laid out as circuits.

In `qsynth-compile`: `Axis` is `RotationAxis`, `ElementaryGate` is `EmittedGate`, and for `Program`, `size` is `len`,
`entanglerCount` is `entangler_count`, `lower` is `lower_to_rotations`, `toCircuit` is `to_circuit` and `phaseFactor`
is `phase_factor`. `Strategy` and `inverse` have their names there.
-/

namespace CircuitSynthesis

/-- The axis of a rotation. -/
inductive Axis where
  | y
  | z
  deriving DecidableEq

def Axis.name : Axis → String
  | y => "y"
  | z => "z"

/-- One operation of a program. -/
inductive ElementaryGate (R : Type) where
  | unitary (wire : Nat) (matrix : Matrix2 R)
  | rotation (wire : Nat) (axis : Axis) (angle : R)
  | entangler (control target : Nat)
  deriving DecidableEq

namespace ElementaryGate

variable {R : Type} [Scalar R]

def inverse : ElementaryGate R → ElementaryGate R
  | unitary wire matrix => unitary wire matrix.dagger
  | rotation wire axis angle => rotation wire axis (-angle)
  | entangler control target => entangler control target

def wires : ElementaryGate R → List Nat
  | unitary wire _ => [wire]
  | rotation wire _ _ => [wire]
  | entangler control target => [control, target]

def isEntangler : ElementaryGate R → Bool
  | entangler _ _ => true
  | _ => false

def isRotation : ElementaryGate R → Bool
  | rotation _ _ _ => true
  | _ => false

/-- Adds the operation to a circuit. -/
def addTo (c : Circuit R) : ElementaryGate R → Except BuildError (Circuit R)
  | unitary wire matrix => c.unitary matrix.entries.toArray wire
  | rotation wire .y angle => c.standard (.ry angle) [wire]
  | rotation wire .z angle => c.standard (.rz angle) [wire]
  | entangler control target => c.standard .cx [control, target]

end ElementaryGate

/-- How an input was handled. -/
inductive Strategy where
  /-- One qubit: a single matrix. -/
  | singleQubit
  /-- A diagonal operator: its phases only. -/
  | diagonal
  /-- Two qubits: local factors around an interaction. -/
  | twoQubit
  /-- Reflections, one wire after another. -/
  | general
  | statePreparation
  deriving DecidableEq

def Strategy.name : Strategy → String
  | singleQubit => "single-qubit"
  | diagonal => "diagonal"
  | twoQubit => "two-qubit"
  | general => "general"
  | statePreparation => "state-preparation"

/-- Gates in the order in which they act, and a global phase. -/
structure Program (R : Type) where
  width : Nat
  gates : List (ElementaryGate R)
  /-- The global phase in radians. -/
  phase : R
  /-- How the program was found. -/
  strategy : Strategy
  deriving DecidableEq

namespace Program

variable {R : Type} [Scalar R]

def size (p : Program R) : Nat := p.gates.length

def entanglerCount (p : Program R) : Nat := p.gates.countP ElementaryGate.isEntangler

/-- The program of the inverse operator. -/
def inverse (p : Program R) : Program R :=
  { p with gates := p.gates.reverse.map ElementaryGate.inverse, phase := -p.phase }

/-- A rotation wrapped into half a turn on either side of zero, left out when nothing remains, and the phase owed for
the turns removed. -/
def wrappedRotation (wire : Nat) (axis : Axis) (angle : R) : List (ElementaryGate R) × R :=
  let (rest, turns) := wrapAngle angle
  (if 0 < Scalar.abs rest then [.rotation wire axis rest] else [], turns * Scalar.pi)

/-- A gate as rotations only, and the global phase once the gate's share is added to it. A multiple of the identity is
all phase. -/
def lowerGate (phase : R) : ElementaryGate R → List (ElementaryGate R) × R
  | .unitary wire u =>
    if u.isScalar then ([], phase + u.a.arg)
    else
      let angles := u.zyz
      let (first, p₁) := wrappedRotation wire .z angles.gamma
      let (second, p₂) := wrappedRotation wire .y angles.beta
      let (third, p₃) := wrappedRotation wire .z angles.alpha
      (first ++ second ++ third, phase + angles.phase + p₁ + p₂ + p₃)
  | g => ([g], phase)

/-- Lowers a list of gates, adding to a global phase on the way. -/
def lowerGates (phase : R) : List (ElementaryGate R) → List (ElementaryGate R) × R
  | [] => ([], phase)
  | g :: rest =>
    let (lowered, phase) := lowerGate phase g
    let (tail, phase) := lowerGates phase rest
    (lowered ++ tail, phase)

/-- The same program with every matrix written as three rotations or fewer. -/
def lower (p : Program R) : Program R :=
  let (gates, phase) := lowerGates p.phase p.gates
  { p with gates, phase }

def toCircuit (p : Program R) (name : String) : Except BuildError (Circuit R) := do
  let c ← p.gates.foldlM ElementaryGate.addTo (Circuit.empty name p.width)
  return c.setPhase p.phase

def phaseFactor (p : Program R) : Amplitude R := Amplitude.phase p.phase

end Program

end CircuitSynthesis
