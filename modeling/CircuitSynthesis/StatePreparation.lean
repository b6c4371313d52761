import CircuitSynthesis.Diagonal

/-!
# Preparing states

The amplitudes of a state are paired along the lowest wire. Within a pair the split of the magnitudes is an angle about
the second axis and the difference of the phases one about the third; the pair becomes one amplitude on the wires above.
The wires are prepared from the highest down, each by two multiplexed rotations.

In `qsynth-compile`, `synthesizeState` is `synthesize_state`, and `splitAngle` and `phaseAngle` make up its `Level`.
-/

namespace CircuitSynthesis

variable {R : Type} [Scalar R]

/-- The angle that splits a magnitude into those of a pair. -/
def splitAngle (p : Amplitude R × Amplitude R) : R := Scalar.two * Scalar.atan2 p.2.norm p.1.norm

/-- The phase difference of a pair. -/
def phaseAngle (p : Amplitude R × Amplitude R) : R := p.2.arg - p.1.arg

/-- The amplitude that a pair leaves to the wires above: the joint magnitude with the mean phase. -/
def parentAmplitude (p : Amplitude R × Amplitude R) : Amplitude R :=
  .polar (Scalar.hypot p.1.norm p.2.norm) ((p.1.arg + p.2.arg) / Scalar.two)

/-- The gates that prepare amplitudes on `wires` wires from `target` on, and the phase left over. -/
def stateLevels (cutoff : R) : (wires : Nat) → List (Amplitude R) → (target : Nat) →
    Synthesis R (List (ElementaryGate R) × R)
  | 0, current, _ => return ([], (current.headD 0).arg)
  | wires + 1, current, target => do
    let level := pairs current
    -- the wires above come first: they control the rotations of this one
    let (above, phase) ← stateLevels cutoff wires (level.map parentAmplitude) (target + 1)
    let table ← Synthesis.table (wires + 1)
    let split ← multiplexedRotation .y (level.map splitAngle) target table cutoff
    let turn ← multiplexedRotation .z (level.map phaseAngle) target table cutoff
    return (above ++ split ++ turn, phase)

/-- The gates that take the wires from `lo` on from all zeros to the normalized amplitudes, wire `lo` holding the lowest
bit of an index, and the global phase that completes them. -/
def synthesizeState (amplitudes : List (Amplitude R)) (lo : Nat) (cutoff : R) :
    Synthesis R (List (ElementaryGate R) × R) := do
  if isPowerOfTwo amplitudes.length then
    match amplitudes.zipIdx.find? fun (z, _) => !z.isFinite with
    | some (z, index) => throw (.overflow .statePreparation index z.norm)
    | none => stateLevels cutoff amplitudes.length.log2 amplitudes lo
  else throw (.shape (.amplitudeCount amplitudes.length))

end CircuitSynthesis
