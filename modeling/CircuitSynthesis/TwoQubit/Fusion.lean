import CircuitSynthesis.Program

/-!
# Fusing matrices

Matrices that follow each other on wire zero or wire one, with nothing else on that wire between them, are multiplied,
and a product that is a multiple of the identity becomes phase.

In `qsynth-compile`, `fuse` is `fuse_single_qubit`.
-/

namespace CircuitSynthesis.TwoQubit

variable {R : Type} [Scalar R]

/-- The state of the pass: what waits on each of the two wires, what has been written (the latest gate first), and the
phase. -/
structure Fusion (R : Type) where
  /-- The matrix that waits on wire zero. -/
  low : Option (Matrix2 R)
  /-- The matrix that waits on wire one. -/
  high : Option (Matrix2 R)
  /-- The gates written so far, the latest first. -/
  written : List (ElementaryGate R)
  phase : R

namespace Fusion

/-- Writes a matrix that waited on a wire, or turns it into phase. -/
def release (f : Fusion R) (wire : Nat) : Option (Matrix2 R) → Fusion R
  | none => f
  | some u =>
    if u.isScalar then { f with phase := f.phase + u.a.arg }
    else { f with written := .unitary wire u :: f.written }

/-- Empties the slot of a wire. -/
def flush (f : Fusion R) (wire : Nat) : Fusion R :=
  if wire = 0 then { f with low := none }.release 0 f.low
  else if wire = 1 then { f with high := none }.release 1 f.high
  else f

/-- Puts a matrix after the one that waits. -/
def join (u : Matrix2 R) : Option (Matrix2 R) → Option (Matrix2 R)
  | some earlier => some (u * earlier)
  | none => some u

/-- Takes the next gate. -/
def add (f : Fusion R) (g : ElementaryGate R) : Fusion R :=
  -- any other gate closes the wires that it touches and is written after what waited there
  let pass := let f := g.wires.foldl flush f; { f with written := g :: f.written }
  match g with
  | .unitary 0 u => { f with low := join u f.low }
  | .unitary 1 u => { f with high := join u f.high }
  | .unitary _ _ | .rotation _ _ _ | .entangler _ _ => pass

end Fusion

/-- The fused gates and the phase they leave. -/
def fuse (gates : List (ElementaryGate R)) (phase : R) : List (ElementaryGate R) × R :=
  let f := ((gates.foldl Fusion.add ⟨none, none, [], phase⟩).flush 1).flush 0
  (f.written.reverse, f.phase)

end CircuitSynthesis.TwoQubit
