import CircuitSynthesis.Multiplexed

/-!
# Diagonal operators

The phases of a diagonal are paired along the lowest wire. A multiplexed rotation about the third axis on that wire
realizes the phase difference within each pair, the common phases go to the wires above, and what is left in the end is
a global phase. The differences are found as running sums of their own differences from pair to pair, each taken from a
quotient of four entries.

In `qsynth-compile`: `secondDifferences` is `fill_psi`, `synthesizeDiagonal` is `synthesize_diagonal` with its loop
over the wires as `diagonalLevels`, and `minMagnitude` is `MIN_MAGNITUDE`.
-/

namespace CircuitSynthesis

variable {R : Type} [Scalar R]

def isPowerOfTwo (n : Nat) : Bool := n != 0 && 2 ^ n.log2 == n

/-- Neighbours taken two at a time; an odd one at the end is left out. -/
def pairs {α : Type} : List α → List (α × α)
  | a :: b :: rest => (a, b) :: pairs rest
  | _ => []

/-- How the phase difference within a pair changes from each pair to the next. -/
def secondDifferences (d : List (Amplitude R)) : List R :=
  let ps := pairs d
  List.zipWith (fun (a, b) (c, e) => (a * e / (b * c)).arg) ps ps.tail

/-- The running sums of a list, starting at a given number. -/
def runningSums (start : R) : List R → List R
  | [] => [start]
  | x :: xs => start :: runningSums (start + x) xs

/-- The phase difference within each pair. -/
def pairPhases (d : List (Amplitude R)) : List R :=
  match d with
  | a :: b :: _ => runningSums (b / a).arg (secondDifferences d)
  | _ => []

/-- Smaller magnitudes carry no phase. -/
def minMagnitude : R := 1e-12

/-- Every entry divided by its modulus. -/
def normalizePhases (d : List (Amplitude R)) (index : Nat) : Except (SynthesisError R) (List (Amplitude R)) :=
  match d with
  | [] => .ok []
  | z :: rest => do
    let magnitude := z.norm
    if !Scalar.isFinite magnitude || magnitude < minMagnitude then
      throw (.overflow .diagonal index magnitude)
    return z.divReal magnitude :: (← normalizePhases rest (index + 1))

/-- The gates of a diagonal of phases on `wires` wires from `target` on, and the phase left over. -/
def diagonalLevels (cutoff : R) : (wires : Nat) → List (Amplitude R) → (target : Nat) →
    Synthesis R (List (ElementaryGate R) × R)
  | 0, current, _ => return ([], (current.headD 0).arg)
  | wires + 1, current, target => do
    let table ← Synthesis.table (wires + 1)
    let alpha := pairPhases current
    let level ← multiplexedRotation .z alpha target table cutoff
    -- a rotation turns the two entries of a pair opposite ways, so half the difference is the common phase
    let parents := List.zipWith (fun (a, _) t => a * Amplitude.phase (t / Scalar.two)) (pairs current) alpha
    let (rest, phase) ← diagonalLevels cutoff wires parents (target + 1)
    return (level ++ rest, phase)

/-- The gates of the operator that multiplies basis state `x` of the wires from `lo` on by the phase of entry `x`, and
the global phase that completes it. -/
def synthesizeDiagonal (diagonal : List (Amplitude R)) (lo : Nat) (cutoff : R) :
    Synthesis R (List (ElementaryGate R) × R) := do
  if isPowerOfTwo diagonal.length then
    let phases ← normalizePhases diagonal 0
    diagonalLevels cutoff diagonal.length.log2 phases lo
  else throw (.shape (.phaseCount diagonal.length))

end CircuitSynthesis
