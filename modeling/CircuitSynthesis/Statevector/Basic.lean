import CircuitSynthesis.Statevector.Kernels
import CircuitSynthesis.Circuit.Basic
import CircuitSynthesis.Dense
import CircuitSynthesis.UniformDraw

/-!
# Simulation

States are made, measured against each other and sent through circuits. The operator of a circuit is found column by
column, as its action on the basis states, and two operators are compared up to the phase that aligns them best.

In `qsynth-sim`, for `Statevector`: `ground` is `new`, `ofAmplitudes` is `from_amplitudes`, `normSq` is `norm_sqr`,
`applyCircuit` is `apply_circuit`, and `basis`, `random`, `inner` and `expectation` have their names there.
`Circuit.operator` is `circuit_unitary` with `MAX_DENSE_QUBITS` as `maxDenseQubits`, `phaseAlignedError` is
`phase_aligned_error`, and `SimulationError` is `SimError`.
-/

namespace CircuitSynthesis

/-- Why a simulation was refused. -/
inductive SimulationError where
  | widthMismatch (circuit state : Nat)
  | invalidLength (length : Nat)
  | dimensionMismatch (rows cols dim : Nat)
  | tooManyQubits (requested limit : Nat)
  deriving DecidableEq

def SimulationError.message : SimulationError → String
  | widthMismatch circuit state => s!"Circuit acts on {circuit} qubits but the state has {state}"
  | invalidLength length => s!"State length {length} is not a power of two"
  | dimensionMismatch rows cols dim => s!"Operator is {rows}x{cols}, expected {dim}x{dim}"
  | tooManyQubits requested limit => s!"Refusing to build a dense operator on {requested} qubits (max {limit})"

variable {R : Type} [Scalar R] {n : Nat}

namespace Statevector

/-- The basis state of an index, taken modulo the number of basis states. -/
def basis (n index : Nat) : Statevector R n :=
  let k := index % 2 ^ n
  .ofFn fun i => if i.val = k then 1 else 0

/-- The state in which every wire reads zero. -/
def ground (n : Nat) : Statevector R n := basis n 0

/-- The state of a list of amplitudes, with its width. -/
def ofAmplitudes (amplitudes : List (Amplitude R)) : Except SimulationError ((n : Nat) × Statevector R n) :=
  let n := amplitudes.length.log2
  if h : amplitudes.toArray.size = 2 ^ n then .ok ⟨n, ⟨amplitudes.toArray, h⟩⟩
  else .error (.invalidLength amplitudes.length)

def normSq (s : Statevector R n) : R := Scalar.sum (s.toList.map Amplitude.normSq)

/-- The state whose components are consecutive draws, scaled to norm one. -/
def random (n : Nat) (draws : Nat → R) : Statevector R n :=
  let raw : Statevector R n := .ofFn fun i => ⟨draws (2 * i), draws (2 * i + 1)⟩
  let norm := Scalar.sqrt raw.normSq
  raw.map (·.divReal norm)

/-- The inner product; of two states of different width, over the amplitudes that both have. -/
def inner {m : Nat} (s : Statevector R n) (t : Statevector R m) : Amplitude R :=
  Scalar.sum (List.zipWith (fun a b => a.conj * b) s.toList t.toList)

def expectation {rows cols : Nat} (s : Statevector R n) (observable : Dense (Amplitude R) rows cols) :
    Except SimulationError (Amplitude R) :=
  if h : rows = 2 ^ n ∧ cols = 2 ^ n then
    let m := observable.cast h.1 h.2
    let image := m.mulVec fun j => s[j]
    .ok (Scalar.sumFin fun i : Fin (2 ^ n) => s[i].conj * image[i])
  else .error (.dimensionMismatch rows cols (2 ^ n))

/-- Every instruction in turn, then the global phase. -/
def run (s : Statevector R n) (c : Circuit R) : Statevector R n :=
  let s := c.instructions.foldl (fun s op => s.apply op) s
  if c.phase == 0 then s
  else
    let phase := Amplitude.phase c.phase
    s.map (· * phase)

/-- The action of a circuit of the same width. -/
def applyCircuit (s : Statevector R n) (c : Circuit R) : Except SimulationError (Statevector R n) :=
  if c.width = n then .ok (s.run c) else .error (.widthMismatch c.width n)

end Statevector

/-- The widest circuit that is expanded into a dense operator. -/
def maxDenseQubits : Nat := 12

/-- The operator of a circuit, its global phase included; column `j` is the circuit applied to basis state `j`. -/
def Circuit.operator (c : Circuit R) :
    Except SimulationError (Dense (Amplitude R) (2 ^ c.width) (2 ^ c.width)) :=
  if maxDenseQubits < c.width then .error (.tooManyQubits c.width maxDenseQubits)
  else
    let columns : Vector (Statevector R c.width) (2 ^ c.width) := .ofFn fun j => (Statevector.basis c.width j).run c
    .ok (.ofFn fun i j => columns[j][i])

/-- The distance between two operators relative to the first, once the first is turned by the phase that brings them
closest. -/
def phaseAlignedError {m k l : Nat} (expected : Dense (Amplitude R) m n) (actual : Dense (Amplitude R) k l) :
    Except SimulationError R :=
  if h : k = m ∧ l = n then
    let actual := actual.cast h.1 h.2
    let overlap : Amplitude R :=
      Scalar.sumFin fun i => Scalar.sumFin fun j => (expected.get i j).conj * actual.get i j
    let phase := if 0 < overlap.norm then overlap.divReal overlap.norm else 1
    let difference := (expected.scale phase - actual).normSq
    let scale := expected.normSq
    if scale == 0 then .ok (Scalar.sqrt difference) else .ok (Scalar.sqrt (difference / scale))
  else .error (.dimensionMismatch k l m)

end CircuitSynthesis
