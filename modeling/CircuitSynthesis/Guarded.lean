import CircuitSynthesis.Compiler

/-!
# Compiling with every index checked

The compiler once more, except that an index or the width of a shift that is out of range ends the computation, where the
library reads a default or leaves out what has no partner. Reads whose index is in range by its type are not repeated.

The indices and shifts are those of `SignTable`, `uniformly_controlled`, `synthesize_diagonal`, `synthesize_state` and
`UnitaryCompiler` in `qsynth-compile`.
-/

namespace CircuitSynthesis

/-- A synthesis that comes to nothing once an index or a shift is out of range. -/
abbrev Guarded (R : Type) := ExceptT (SynthesisError R) (StateT (SignTableCache R) Option)

namespace Guarded

variable {R α : Type}

/-- Goes on if an index or a shift is in range. -/
def check (p : Prop) [Decidable p] : Guarded R Unit := ExceptT.lift (StateT.lift (guard p))

/-- A synthesis that has nothing to check. -/
def free (s : Synthesis R α) : Guarded R α := fun cache => some (s.run cache).run

end Guarded

open Guarded

variable {R : Type} [Scalar R]

/-- The width of a machine word. -/
def wordBits : Nat := 64

/-- The sign table of a width. It has two to the number of controls rows, and its ladder a place for each step of a walk. -/
def Synthesis.table? (width : Nat) : Guarded R (SignTable R width) := do
  check (width - 1 < wordBits)
  check (∀ p < width - 1, (GrayCode.toggleWalk (p + 1) (2 ^ (width - 1))).length ≤ 2 ^ (width - 1))
  free (Synthesis.table width)

/-- A multiplexed rotation, whose ladder has a control after each angle unless there is no control at all. -/
def multiplexedRotation? {width : Nat} (axis : Axis) (angles : List R) (target : Nat) (table : SignTable R width)
    (cutoff : R) : Guarded R (List (ElementaryGate R)) := do
  check (width - 1 = 0 ∨ table.ladder.length = 2 ^ (width - 1))
  free (multiplexedRotation axis angles target table cutoff)

/-- The gates of a diagonal. Each pair and its neighbour are read, then each pair with its angle. -/
def diagonalLevels? (cutoff : R) : (wires : Nat) → List (Amplitude R) → (target : Nat) →
    Guarded R (List (ElementaryGate R) × R)
  | 0, current, _ => do
    check (0 < current.length)
    return ([], (current.headD 0).arg)
  | wires + 1, current, target => do
    let table ← Synthesis.table? (wires + 1)
    check (∀ i < current.length / 2 - 1, 2 * i + 3 < current.length)
    check (1 < current.length)
    let alpha := pairPhases current
    let level ← multiplexedRotation? .z alpha target table cutoff
    check (∀ x < current.length / 2, 2 * x < current.length ∧ x < alpha.length)
    let parents := List.zipWith (fun (a, _) t => a * Amplitude.phase (t / Scalar.two)) (pairs current) alpha
    let (rest, phase) ← diagonalLevels? cutoff wires parents (target + 1)
    return (level ++ rest, phase)

def synthesizeDiagonal? (diagonal : List (Amplitude R)) (lo : Nat) (cutoff : R) :
    Guarded R (List (ElementaryGate R) × R) := do
  if isPowerOfTwo diagonal.length then
    let phases ← free (liftM (normalizePhases diagonal 0))
    diagonalLevels? cutoff diagonal.length.log2 phases lo
  else throw (.shape (.phaseCount diagonal.length))

/-- The gates of a state, whose last remaining amplitude is read for the phase. -/
def stateLevels? (cutoff : R) : (wires : Nat) → List (Amplitude R) → (target : Nat) →
    Guarded R (List (ElementaryGate R) × R)
  | 0, current, _ => do
    check (0 < current.length)
    return ([], (current.headD 0).arg)
  | wires + 1, current, target => do
    let level := pairs current
    let (above, phase) ← stateLevels? cutoff wires (level.map parentAmplitude) (target + 1)
    let table ← Synthesis.table? (wires + 1)
    let split ← multiplexedRotation? .y (level.map splitAngle) target table cutoff
    let turn ← multiplexedRotation? .z (level.map phaseAngle) target table cutoff
    return (above ++ split ++ turn, phase)

def synthesizeState? (amplitudes : List (Amplitude R)) (lo : Nat) (cutoff : R) :
    Guarded R (List (ElementaryGate R) × R) := do
  if isPowerOfTwo amplitudes.length then
    match amplitudes.zipIdx.find? fun entry => !entry.1.isFinite with
    | some entry => throw (.overflow .statePreparation entry.2 entry.1.norm)
    | none => stateLevels? cutoff amplitudes.length.log2 amplitudes lo
  else throw (.shape (.amplitudeCount amplitudes.length))

namespace Compiler

/-- An operator is measured against a power of two once its number of qubits has passed. -/
def validate? (c : Compiler R) {m n : Nat} (unitary : Dense (Amplitude R) m n) (qubits : Nat) :
    Guarded R (Dense (Amplitude R) (2 ^ qubits) (2 ^ qubits)) := do
  check (m = n ∧ qubits ≠ 0 ∧ qubits ≤ c.settings.maxQubits.toNat → qubits < wordBits)
  free (liftM (c.validate unitary qubits))

/-- The reflection along a vector. The flipped state has to be one of the register. -/
def emitReflection? (c : Compiler R) (vector : List (Amplitude R)) (depth qubits : Nat) :
    Guarded R (List (ElementaryGate R) × R) := do
  let cutoff := c.settings.rotationCutoff
  let (prepare, _) ← synthesizeState? vector 0 cutoff
  check (depth ≤ qubits ∧ depth < wordBits ∧ qubits - depth < wordBits ∧ qubits < wordBits)
  let flipped := (2 ^ depth - 1) <<< (qubits - depth)
  check (flipped < 2 ^ qubits)
  let phases := (List.range (2 ^ qubits)).map fun x => if x = flipped then ⟨-1, 0⟩ else 1
  let (flip, phase) ← synthesizeDiagonal? phases 0 cutoff
  return ((prepare.reverse.map ElementaryGate.inverse) ++ flip ++ prepare, phase)

def emitReflections? (c : Compiler R) (depth qubits : Nat) (gates : List (ElementaryGate R)) (phase : R) :
    List (List (Amplitude R)) → Guarded R (List (ElementaryGate R) × R)
  | [] => return (gates, phase)
  | vector :: earlier => do
    let (reflection, turn) ← c.emitReflection? vector depth qubits
    c.emitReflections? depth qubits (gates ++ reflection) (phase + turn) earlier

def peel? (c : Compiler R) (qubits : Nat) : (active : Nat) → Dense (Amplitude R) (2 ^ active) (2 ^ active) →
    (depth : Nat) → Guarded R (Peeled R)
  | 0, block, _ => return ⟨[], block.diagonal, 0⟩
  | active + 1, block, depth => do
    if block.maxOffDiagonal < c.settings.diagonalTolerance then return ⟨[], block.diagonal, 0⟩
    else
      let (reflectors, q) := ((Householder.Reducer.steps (2 ^ active)).run (.ofDense block)).run
      let vectors := ((← free (liftM reflectors)).filterMap id).map fun r => r.vector.toList
      let child ← c.peel? qubits active (lowerBlock q.work) (depth + 1)
      let (gates, phase) ← c.emitReflections? depth qubits child.gates child.phase vectors.reverse
      check (2 ^ active ≤ q.work.diagonal.length)
      return ⟨gates, q.work.diagonal.take (2 ^ active) ++ child.diagonal, phase⟩

def compileGeneral? (c : Compiler R) {qubits : Nat} (u : Dense (Amplitude R) (2 ^ qubits) (2 ^ qubits)) :
    Guarded R (List (ElementaryGate R) × R) := do
  let peeled ← c.peel? qubits qubits u 0
  let (gates, phase) ← synthesizeDiagonal? peeled.diagonal 0 c.settings.rotationCutoff
  return (gates ++ peeled.gates, phase + peeled.phase)

def compileAs? (c : Compiler R) {qubits : Nat} (u : Dense (Amplitude R) (2 ^ qubits) (2 ^ qubits)) :
    Classification → Guarded R (List (ElementaryGate R) × R)
  | .singleQubit => do
    check (2 ≤ 2 ^ qubits)
    free (c.compileAs u .singleQubit)
  | .diagonal => synthesizeDiagonal? u.diagonal 0 c.settings.rotationCutoff
  | .twoQubit => free (liftM (c.compileTwoQubit u))
  | .general => c.compileGeneral? u

def compile? (c : Compiler R) {m n : Nat} (unitary : Dense (Amplitude R) m n) (qubits : Nat) :
    Guarded R (Program R) := do
  let u ← c.validate? unitary qubits
  let kind := c.classOf u
  let (gates, phase) ← c.compileAs? u kind
  return ⟨qubits, gates, phase, kind.strategy⟩

def prepareState? (c : Compiler R) (amplitudes : List (Amplitude R)) : Guarded R (Program R) := do
  let length := amplitudes.length
  if length < 2 || !isPowerOfTwo length then throw (.shape (.stateLength length))
  let qubits := length.log2
  if c.settings.maxQubits.toNat < qubits then throw (.shape (.tooManyQubits qubits c.settings.maxQubits.toNat))
  let norm := Scalar.sqrt (Scalar.sum (amplitudes.map Amplitude.normSq))
  if Scalar.abs (norm - 1) ≤ c.settings.unitarityTolerance then
    let (gates, phase) ← synthesizeState? amplitudes 0 c.settings.rotationCutoff
    return ⟨qubits, gates, phase, .statePreparation⟩
  else throw (.notNormalized norm c.settings.unitarityTolerance)

def compileDiagonal? (c : Compiler R) (diagonal : List (Amplitude R)) : Guarded R (Program R) := do
  let length := diagonal.length
  if length < 2 || !isPowerOfTwo length then throw (.shape (.diagonalLength length))
  let deviation := (diagonal.map fun z => Scalar.abs (z.norm - 1)).foldl Scalar.maximum 0
  if deviation < c.settings.unitarityTolerance then
    let (gates, phase) ← synthesizeDiagonal? diagonal 0 c.settings.rotationCutoff
    return ⟨length.log2, gates, phase, .diagonal⟩
  else throw (.notUnitary deviation c.settings.unitarityTolerance)

end Compiler

end CircuitSynthesis
