import CircuitSynthesis.Householder.Reducer

/-!
# QR factors

The complete reduction of a matrix, stored compactly: the triangular factor on and above the diagonal, and below it the
tails of the reflection vectors, whose heads are scaled to one.

In `qsynth-compile`: `qr` is `qr_unblocked`, and for `QrFactors`, `unitary` is `q` and `diagonal` is `r_diagonal`.
-/

namespace CircuitSynthesis.Householder

variable {R : Type} [Scalar R] {m n : Nat}

/-- `A = H₀·H₁⋯·R` with `Hⱼ = I − tau[j]·vⱼvⱼ†`. -/
structure QrFactors (R : Type) (m n : Nat) where
  /-- The triangular factor, and below it the vectors. -/
  packed : Dense (Amplitude R) m n
  /-- The scale of each reflection; zero marks a column that was clear already. -/
  tau : List R
  deriving DecidableEq

/-- The scale of a step's reflection once its vector has head one. -/
def reflectionScale (r : Option (Reflector R m)) : R :=
  match r with
  | none => 0
  | some r => if h : r.column < m then Scalar.two * r.vector[r.column].normSq else 0

def qr (a : Dense (Amplitude R) m n) : Except (SynthesisError R) (QrFactors R m n) :=
  let (result, q) := ((Reducer.steps (min m n)).run (Reducer.ofDense a)).run
  match result with
  | .error e => .error e
  | .ok reflectors =>
    -- a column that was clear already has no vector, and its zeros stay
    let tail (i : Fin m) (j : Fin n) : Option (Amplitude R) := do
      let r ← (← reflectors[j.val]?)
      let head ← r.vector[j.val]?
      return r.vector.get i / head
    .ok {
      packed := .ofFn fun i j => if j.val < i.val then (tail i j).getD (q.work.get i j) else q.work.get i j
      tau := reflectors.map reflectionScale }

namespace QrFactors

/-- The vector of reflection `j`, its head one. -/
def vector (f : QrFactors R m n) (j : Nat) (i : Fin m) : Amplitude R :=
  if i.val < j then 0
  else if i.val = j then 1
  else if h : j < n then f.packed.get i ⟨j, h⟩
  else 0

/-- A reflection applied to a matrix from the left. -/
def reflect (f : QrFactors R m n) (j : Nat) (tau : R) (q : Dense (Amplitude R) m m) : Dense (Amplitude R) m m :=
  if tau == 0 then q
  else
    let v := f.vector j
    let projections : Vector (Amplitude R) m := .ofFn fun c => Scalar.sumFin fun i : Fin m => (v i).conj * q.get i c
    .ofFn fun r c => q.get r c - (tau • v r) * projections.get c

def unitary (f : QrFactors R m n) : Dense (Amplitude R) m m :=
  f.tau.zipIdx.foldr (fun (tau, j) q => f.reflect j tau q) .identity

def diagonal (f : QrFactors R m n) : List (Amplitude R) := f.packed.diagonal

end QrFactors

end CircuitSynthesis.Householder
