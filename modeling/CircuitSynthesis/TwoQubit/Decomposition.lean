import CircuitSynthesis.TwoQubit.Spectral
import CircuitSynthesis.TwoQubit.LocalFactors
import CircuitSynthesis.TwoQubit.Fusion

/-!
# Operators on two qubits

Every unitary on two qubits is `e^{iφ} · K₁ · exp(i(a·XX + b·YY + c·ZZ)) · K₂` with local `K₁` and `K₂`. In the magic
basis the interaction is diagonal and the local factors are real, so the factors follow from a real orthogonal matrix
that diagonalizes `UᵀU`. Each of the three interaction terms costs two controlled-NOTs.

In `qsynth-compile`, `Decomposition` is `TwoQubitDecomposition`: `ofUnitary` is its `new`, `globalPhase` its
`global_phase`, and `diagonalize`, `matrix` and `gates` have their names there. Its `k1` and `k2` are `outer` and
`inner`, and `eigenTolerance` is `EIGEN_TOLERANCE`.
-/

namespace CircuitSynthesis.TwoQubit

variable {R : Type} [Scalar R]

/-- The largest off-diagonal modulus accepted after diagonalizing. -/
def eigenTolerance : R := 1e-9

/-- The matrix `Pᵀ·M·P` for a real `P`. -/
def congruence (p : Dense R 4 4) (m : Dense (Amplitude R) 4 4) : Dense (Amplitude R) 4 4 :=
  (p.complexify.transpose.dot m).dot p.complexify

/-- Whether an angle comes before another; of two zeros the negative one does. -/
def angleBefore (x y : R) : Bool := x < y || (x == y && Scalar.signBit x && !Scalar.signBit y)

/-- The indices of a diagonal in the order of its angles. -/
def angleOrder (d : Dense (Amplitude R) 4 4) : List (Fin 4) :=
  (List.finRange 4).mergeSort fun i j => !angleBefore (d.get j j).arg (d.get i i).arg

/-- The columns in a new order, the last one negated where that makes the determinant positive. -/
def orient (p : Dense R 4 4) (order : List (Fin 4)) : Dense R 4 4 :=
  let sorted : Dense R 4 4 := .ofFn fun r c => p.get r (order.getD c c)
  if sorted.det4 < 0 then LocalFactors.negateLast sorted else sorted

/-- The basis that the eigenvectors of one real combination of `m` give, if it diagonalizes `m`. -/
def basisOfMixing? (kernel : SpectralKernel R) (m : Dense (Amplitude R) 4 4) (a b : R) : Option (Dense R 4 4) :=
  let p := kernel.eigenvectors (.ofFn fun i j => (m.get i j).re * a + (m.get i j).im * b)
  let d := congruence p m
  let off := d.maxOffDiagonal
  if !Scalar.isFinite off || eigenTolerance < off then none else some (orient p (angleOrder d))

/-- The first of a number of mixings whose basis diagonalizes `m`; mixing `k` uses draws `2k` and `2k + 1`. -/
def findBasis? (kernel : SpectralKernel R) (draws : Nat → R) (m : Dense (Amplitude R) 4 4) :
    (attempts : Nat) → (next : Nat) → Option (Dense R 4 4)
  | 0, _ => none
  | attempts + 1, next =>
    match basisOfMixing? kernel m (draws next) (draws (next + 1)) with
    | some p => some p
    | none => findBasis? kernel draws m attempts (next + 2)

/-- A real orthogonal matrix of determinant one that diagonalizes `m`, its columns in the order of the eigenphases. -/
def diagonalize (kernel : SpectralKernel R) (draws : Nat → R) (attempts : Nat) (m : Dense (Amplitude R) 4 4) :
    Except (SynthesisError R) (Dense R 4 4) :=
  match findBasis? kernel draws m attempts 0 with
  | some p => .ok p
  | none => .error (.degenerate (.noEigenbasis attempts))

/-- `e^{iφ} · K₁ · exp(i(a·XX + b·YY + c·ZZ)) · K₂`. -/
structure Decomposition (R : Type) where
  /-- The local factors after the interaction. -/
  outer : LocalFactors R
  /-- The local factors before the interaction. -/
  inner : LocalFactors R
  /-- The coefficient of `XX`. -/
  a : R
  /-- The coefficient of `YY`. -/
  b : R
  /-- The coefficient of `ZZ`. -/
  c : R
  /-- The phase outside the local factors. -/
  phase : R
  deriving DecidableEq

/-- The number of whole quarter turns nearest to an angle. -/
def quarterTurns (angle : R) : R := Scalar.round (angle / Scalar.quarterTurn)

def isOdd (x : R) : Bool := x - Scalar.two * Scalar.floor (x / Scalar.two) == 1

/-- The Pauli matrix that an odd number of quarter turns leaves on each wire. -/
def afterTurns (correction pauli : Matrix2 R) (angle : R) : Matrix2 R :=
  if isOdd (quarterTurns angle) then correction * pauli else correction

/-- What remains of an angle once its quarter turns are removed. -/
def withoutTurns (angle : R) : R := angle - quarterTurns angle * Scalar.quarterTurn

/-- The phase of an angle's quarter turns. -/
def turnPhase (angle : R) : R := quarterTurns angle * Scalar.quarterTurn

namespace Decomposition

/-- Puts the factors together. Quarter turns of the coefficients move into the outer factors and the phase. -/
def assemble (outer inner : LocalFactors R) (x y z phase : R) : Decomposition R :=
  let correction := afterTurns (afterTurns (afterTurns .identity .pauliX x) .pauliY y) .pauliZ z
  { outer := { outer with left := outer.left * correction, right := outer.right * correction }
    inner
    a := withoutTurns x
    b := withoutTurns y
    c := withoutTurns z
    phase := phase + turnPhase x + turnPhase y + turnPhase z }

/-- The half eigenphases, the last of which makes their sum vanish. -/
def halfPhases (d : Dense (Amplitude R) 4 4) : Fin 4 → R :=
  let h (i : Fin 4) := (d.get i i).arg / Scalar.two
  fun i => if i = 3 then -(h 0 + h 1 + h 2) else h i

/-- The decomposition of an operator, which is first replaced by the unitary nearest to it. -/
def ofUnitary (kernel : SpectralKernel R) (seed : UInt64) (attempts : Nat) (u : Dense (Amplitude R) 4 4) :
    Except (SynthesisError R) (Decomposition R) := do
  let size := u.det4.norm
  if !Scalar.isFinite size || size < 1e-12 then throw (.degenerate (.singular size))
  let u ← closestUnitary kernel u
  let phase := u.det4.arg / (Scalar.two * Scalar.two)
  let special := u.scale (Amplitude.phase (-phase))
  let magic := (magicBasis.dagger.dot special).dot magicBasis
  let m := magic.transpose.dot magic
  let p ← diagonalize kernel (kernel.draws seed) attempts m
  -- `magic` is `K·exp(i·h)·pᵀ` for some real orthogonal `K`, so the eigenphases of `m` are `2·h`
  let h := halfPhases (congruence p m)
  let outer := ((magic.dot p.complexify).dot (.ofDiagonal fun i => Amplitude.phase (-h i))).map (·.re)
  let outer ← LocalFactors.ofOrthogonal outer
  let inner ← LocalFactors.ofOrthogonal p.transpose
  if outer.swapped || inner.swapped then throw (.degenerate .reflection)
  return assemble outer inner ((h 0 + h 2) / Scalar.two) ((h 1 + h 2) / Scalar.two) ((h 0 + h 1) / Scalar.two) phase

/-- The whole phase of the factored form. -/
def globalPhase (d : Decomposition R) : R := d.phase + d.outer.phase + d.inner.phase

/-- The operator rebuilt from its factors. -/
def matrix (d : Decomposition R) : Dense (Amplitude R) 4 4 :=
  let angles : Vector R 4 := #v[d.a - d.b + d.c, -d.a + d.b + d.c, d.a + d.b - d.c, -d.a - d.b - d.c]
  let diagonal := Dense.ofDiagonal fun i => Amplitude.phase (angles.get i)
  let interaction := (magicBasis.dot diagonal).dot magicBasis.dagger
  ((d.outer.matrix.dot interaction).dot d.inner.matrix).scale (Amplitude.phase d.phase)

/-- A matrix on each of the two wires. -/
def onBoth (u : Matrix2 R) : List (ElementaryGate R) := [.unitary 1 u, .unitary 0 u]

/-- The interaction `exp(i·coefficient·ZZ)`. -/
def zzBlock (coefficient : R) : List (ElementaryGate R) :=
  [.entangler 0 1, .rotation 1 .z (-Scalar.two * coefficient), .entangler 0 1]

/-- A block of gates, left out when its rotation angle is below the cutoff. -/
def unlessSmall (cutoff coefficient : R) (block : List (ElementaryGate R)) : List (ElementaryGate R) :=
  if cutoff ≤ Scalar.abs (Scalar.two * coefficient) then block else []

/-- The gates before fusion. -/
def rawGates (d : Decomposition R) (cutoff : R) : List (ElementaryGate R) :=
  [.unitary 1 d.inner.left, .unitary 0 d.inner.right] ++
  unlessSmall cutoff d.c (zzBlock d.c) ++
  unlessSmall cutoff d.a (onBoth .hadamard ++ zzBlock d.a ++ onBoth .hadamard) ++
  unlessSmall cutoff d.b (onBoth .phaseSdg ++ onBoth .hadamard ++ zzBlock d.b ++ onBoth .hadamard ++ onBoth .phaseS) ++
  [.unitary 1 d.outer.left, .unitary 0 d.outer.right]

/-- The gates on wires zero and one, and the global phase that completes them. -/
def gates (d : Decomposition R) (cutoff : R) : List (ElementaryGate R) × R := fuse (d.rawGates cutoff) d.globalPhase

end Decomposition

end CircuitSynthesis.TwoQubit
