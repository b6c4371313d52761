import CircuitSynthesis.StatePreparation
import CircuitSynthesis.Householder.Reducer
import CircuitSynthesis.TwoQubit.Decomposition
import CircuitSynthesis.Settings.Basic

/-!
# The compiler

Inputs are checked and classified, then handed to the synthesis of their class. An operator on three qubits or more is
peeled by reflections, one wire per frame: reducing the first half of a block's columns leaves a diagonal on the lower
half of the indices and a block on the upper half, where the highest wire of the frame reads one. A reflection
`I − 2uu†` is a phase flip of one basis state between a preparation of `u` and its inverse. All diagonals together are
synthesized last and act first.

In `qsynth-compile` the type is `UnitaryCompiler`: `make` is its `new`, `classOf` its `classify_unchecked`,
`compileAs` the choice that its `compile` makes by `Classification`, and `compileDiagonal` its `synthesize_diagonal`.
`validate`, `classify`, `compile`, `prepareState`, `compileSingleQubit`, `compileTwoQubit`, `compileGeneral`, `peel`
and `emitReflection` are the functions of these names. The arguments of `peel` make up a `DecompositionFrame`, and
`Peeled` is `FrameOutput`.
-/

namespace CircuitSynthesis

variable {R : Type} [Scalar R]

/-- The syntheses that an operator can be handed to. -/
inductive Classification where
  | singleQubit
  /-- Diagonal, of any width from two qubits on. -/
  | diagonal
  | twoQubit
  | general
  deriving DecidableEq

def Classification.strategy : Classification → Strategy
  | singleQubit => .singleQubit
  | diagonal => .diagonal
  | twoQubit => .twoQubit
  | general => .general

/-- Settings that were accepted, and the numerical routines. -/
structure Compiler (R : Type) where
  settings : Settings R
  /-- The spectral routines and the source of draws. -/
  kernel : TwoQubit.SpectralKernel R

namespace Compiler

/-- A compiler with checked settings. -/
def make (kernel : TwoQubit.SpectralKernel R) (settings : Settings R) : Except (SynthesisError R) (Compiler R) :=
  match settings.check with
  | .ok () => .ok ⟨settings, kernel⟩
  | .error fault => .error (.settings fault)

/-- Accepts a unitary on the given number of qubits, and returns it with its dimension in its type. -/
def validate (c : Compiler R) {m n : Nat} (unitary : Dense (Amplitude R) m n) (qubits : Nat) :
    Except (SynthesisError R) (Dense (Amplitude R) (2 ^ qubits) (2 ^ qubits)) := do
  if m ≠ n then throw (.shape (.notSquare m n))
  if qubits = 0 then throw (.shape .noQubits)
  if c.settings.maxQubits.toNat < qubits then throw (.shape (.tooManyQubits qubits c.settings.maxQubits.toNat))
  if h : m = 2 ^ qubits ∧ n = 2 ^ qubits then
    let u := unitary.cast h.1 h.2
    let deviation := u.unitarityDeviation
    if deviation < c.settings.unitarityTolerance then return u
    else throw (.notUnitary deviation c.settings.unitarityTolerance)
  else throw (.shape (.dimension m qubits))

/-- The class of an accepted operator. -/
def classOf (c : Compiler R) {qubits : Nat} (u : Dense (Amplitude R) (2 ^ qubits) (2 ^ qubits)) : Classification :=
  if qubits = 1 then .singleQubit
  else if u.maxOffDiagonal < c.settings.diagonalTolerance then .diagonal
  else if qubits = 2 then .twoQubit
  else .general

/-- Checks an operator and finds its class. -/
def classify (c : Compiler R) {m n : Nat} (unitary : Dense (Amplitude R) m n) (qubits : Nat) :
    Except (SynthesisError R) Classification := do
  return c.classOf (← c.validate unitary qubits)

/-- A single matrix of determinant one, and the phase. -/
def compileSingleQubit {m n : Nat} (hm : 2 ≤ m) (hn : 2 ≤ n) (u : Dense (Amplitude R) m n) :
    List (ElementaryGate R) × R :=
  let matrix := Matrix2.ofDense hm hn u
  let phase := matrix.halfPhase
  ([.unitary 0 (matrix.scale (Amplitude.phase (-phase)))], phase)

/-- Local factors around an interaction. -/
def compileTwoQubit (c : Compiler R) {m n : Nat} (u : Dense (Amplitude R) m n) :
    Except (SynthesisError R) (List (ElementaryGate R) × R) := do
  let d ← TwoQubit.Decomposition.ofUnitary c.kernel c.settings.tieBreakSeed c.settings.maxDegeneracyRetries.toNat
    (← TwoQubit.fourByFour u)
  return d.gates c.settings.rotationCutoff

/-- What a frame and the frames below it contribute. -/
structure Peeled (R : Type) where
  /-- The gates of the reflections, the deepest frame's first. -/
  gates : List (ElementaryGate R)
  diagonal : List (Amplitude R)
  phase : R

/-- The reflection along a vector on the basis states whose top `depth` wires read one. -/
def emitReflection (c : Compiler R) (vector : List (Amplitude R)) (depth qubits : Nat) :
    Synthesis R (List (ElementaryGate R) × R) := do
  let cutoff := c.settings.rotationCutoff
  -- its phase is dropped: the inverse at the other end takes it back
  let (prepare, _) ← synthesizeState vector 0 cutoff
  -- the preparation acts below the wires that read one, so it starts from this basis state
  let flipped := (2 ^ depth - 1) <<< (qubits - depth)
  let phases := (List.range (2 ^ qubits)).map fun x => if x = flipped then ⟨-1, 0⟩ else 1
  let (flip, phase) ← synthesizeDiagonal phases 0 cutoff
  return ((prepare.reverse.map ElementaryGate.inverse) ++ flip ++ prepare, phase)

/-- The reflections of a list, the last one first, after the gates and the phase that are given. -/
def emitReflections (c : Compiler R) (depth qubits : Nat) (gates : List (ElementaryGate R)) (phase : R) :
    List (List (Amplitude R)) → Synthesis R (List (ElementaryGate R) × R)
  | [] => return (gates, phase)
  | vector :: earlier => do
    let (reflection, turn) ← c.emitReflection vector depth qubits
    c.emitReflections depth qubits (gates ++ reflection) (phase + turn) earlier

/-- The lower right quarter of a block. -/
def lowerBlock {k : Nat} (work : Dense (Amplitude R) (2 ^ (k + 1)) (2 ^ (k + 1))) : Dense (Amplitude R) (2 ^ k) (2 ^ k) :=
  .ofFn fun i j => work.get ⟨2 ^ k + i, by have := i.isLt; omega⟩ ⟨2 ^ k + j, by have := j.isLt; omega⟩

/-- Peels a block of `active` wires whose top `depth` wires above it read one. A block that is diagonal within tolerance
ends the peeling. -/
def peel (c : Compiler R) (qubits : Nat) : (active : Nat) → Dense (Amplitude R) (2 ^ active) (2 ^ active) →
    (depth : Nat) → Synthesis R (Peeled R)
  | 0, block, _ => return ⟨[], block.diagonal, 0⟩
  | active + 1, block, depth => do
    if block.maxOffDiagonal < c.settings.diagonalTolerance then return ⟨[], block.diagonal, 0⟩
    else
      let (reflectors, q) := ((Householder.Reducer.steps (2 ^ active)).run (.ofDense block)).run
      let vectors := ((← reflectors).filterMap id).map fun r => r.vector.toList
      let child ← c.peel qubits active (lowerBlock q.work) (depth + 1)
      -- the block is `H₀·H₁⋯` times what is left of it, so the last reflection acts first
      let (gates, phase) ← c.emitReflections depth qubits child.gates child.phase vectors.reverse
      return ⟨gates, q.work.diagonal.take (2 ^ active) ++ child.diagonal, phase⟩

/-- Reflections after one diagonal. -/
def compileGeneral (c : Compiler R) {qubits : Nat} (u : Dense (Amplitude R) (2 ^ qubits) (2 ^ qubits)) :
    Synthesis R (List (ElementaryGate R) × R) := do
  let peeled ← c.peel qubits qubits u 0
  let (gates, phase) ← synthesizeDiagonal peeled.diagonal 0 c.settings.rotationCutoff
  return (gates ++ peeled.gates, phase + peeled.phase)

/-- The gates of an accepted operator of a given class. -/
def compileAs (c : Compiler R) {qubits : Nat} (u : Dense (Amplitude R) (2 ^ qubits) (2 ^ qubits)) :
    Classification → Synthesis R (List (ElementaryGate R) × R)
  | .singleQubit =>
    if h : 2 ≤ 2 ^ qubits then return compileSingleQubit h h u else throw (.shape .noQubits)
  | .diagonal => synthesizeDiagonal u.diagonal 0 c.settings.rotationCutoff
  | .twoQubit => c.compileTwoQubit u
  | .general => c.compileGeneral u

/-- A program whose gates, followed by its global phase, make up the given operator. -/
def compile (c : Compiler R) {m n : Nat} (unitary : Dense (Amplitude R) m n) (qubits : Nat) :
    Synthesis R (Program R) := do
  let u ← c.validate unitary qubits
  let kind := c.classOf u
  let (gates, phase) ← c.compileAs u kind
  return ⟨qubits, gates, phase, kind.strategy⟩

/-- A program that takes all zeros to the given state. -/
def prepareState (c : Compiler R) (amplitudes : List (Amplitude R)) : Synthesis R (Program R) := do
  let length := amplitudes.length
  if length < 2 || !isPowerOfTwo length then throw (.shape (.stateLength length))
  let qubits := length.log2
  if c.settings.maxQubits.toNat < qubits then throw (.shape (.tooManyQubits qubits c.settings.maxQubits.toNat))
  let norm := Scalar.sqrt (Scalar.sum (amplitudes.map Amplitude.normSq))
  if Scalar.abs (norm - 1) ≤ c.settings.unitarityTolerance then
    let (gates, phase) ← synthesizeState amplitudes 0 c.settings.rotationCutoff
    return ⟨qubits, gates, phase, .statePreparation⟩
  else throw (.notNormalized norm c.settings.unitarityTolerance)

/-- A program of the given diagonal, whose entries must have modulus one. -/
def compileDiagonal (c : Compiler R) (diagonal : List (Amplitude R)) : Synthesis R (Program R) := do
  let length := diagonal.length
  if length < 2 || !isPowerOfTwo length then throw (.shape (.diagonalLength length))
  let deviation := (diagonal.map fun z => Scalar.abs (z.norm - 1)).foldl Scalar.maximum 0
  if deviation < c.settings.unitarityTolerance then
    let (gates, phase) ← synthesizeDiagonal diagonal 0 c.settings.rotationCutoff
    return ⟨length.log2, gates, phase, .diagonal⟩
  else throw (.notUnitary deviation c.settings.unitarityTolerance)

end Compiler

end CircuitSynthesis
