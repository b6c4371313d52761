import CircuitSynthesis.Program
import CircuitSynthesis.SignTable

/-!
# Multiplexed rotations

A rotation whose angle depends on the value of the wires above its target. It becomes a ladder of rotations by solved
angles, each followed by a controlled-NOT along the Gray code.

In `qsynth-compile`, `multiplexedRotation` is `uniformly_controlled`.
-/

namespace CircuitSynthesis

variable {R : Type} [Scalar R]

/-- The ladder: a rotation per angle that is not below the cutoff, and a controlled-NOT after each step. -/
def rotationLadder (axis : Axis) (target : Nat) (cutoff : R) : List R → List Nat → List (ElementaryGate R)
  | angle :: angles, control :: controls =>
    let step := [.entangler (target + 1 + control) target]
    let step := if cutoff ≤ Scalar.abs angle then .rotation target axis angle :: step else step
    step ++ rotationLadder axis target cutoff angles controls
  | _, _ => []

/-- A rotation about `axis` on `target` by `angles[x]` where the wires directly above the target read `x`, the lowest
of them holding its lowest bit. When all steps after the first are below the cutoff, the ladder collapses to one
rotation at most. -/
def multiplexedRotation {width : Nat} (axis : Axis) (angles : List R) (target : Nat) (table : SignTable R width)
    (cutoff : R) : Except (SynthesisError R) (List (ElementaryGate R)) := do
  let theta := (← table.solve angles).toList
  match theta with
  | [] => return []
  | first :: rest =>
    if rest.any fun angle => cutoff ≤ Scalar.abs angle then
      return rotationLadder axis target cutoff theta table.ladder
    else if cutoff ≤ Scalar.abs first then return [.rotation target axis first]
    else return []

end CircuitSynthesis
