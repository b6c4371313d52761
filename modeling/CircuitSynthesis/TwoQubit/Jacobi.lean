import CircuitSynthesis.TwoQubit.Spectral

/-!
# Jacobi iterations

Eigenvectors and singular values of matrices of four rows by plane rotations. Each sweep meets every pair of columns
once; a fixed number of sweeps is far more than convergence to rounding takes at this size.

They stand in for `symmetric_eigen` and `svd` of `nalgebra`.
-/

namespace CircuitSynthesis.TwoQubit.Jacobi

variable {R : Type} [Scalar R]

/-- The pairs of columns of one sweep. -/
def columnPairs : List (Fin 4 × Fin 4) := [(0, 1), (0, 2), (0, 3), (1, 2), (1, 3), (2, 3)]

/-- The pairs of columns of all sweeps. -/
def schedule : List (Fin 4 × Fin 4) := (List.replicate 16 columnPairs).flatten

/-- The cosine and sine of the smaller rotation that clears an entry `off` between diagonal entries `low` and `high`. -/
def planeRotation (low high off : R) : R × R :=
  let slope := (high - low) / (Scalar.two * off)
  let size := 1 / (Scalar.abs slope + Scalar.sqrt (slope * slope + 1))
  let t := if slope < 0 then -size else size
  let c := 1 / Scalar.sqrt (t * t + 1)
  (c, t * c)

/-- The rotation by an angle of the given cosine and sine in the plane of two columns. -/
def planeMatrix (p q : Fin 4) (c s : R) : Dense R 4 4 :=
  .ofFn fun i j =>
    if i = p ∧ j = p ∨ i = q ∧ j = q then c
    else if i = p ∧ j = q then s
    else if i = q ∧ j = p then -s
    else if i = j then 1 else 0

/-- One rotation of a symmetric matrix, and of the basis collected so far. -/
def rotateSymmetric (state : Dense R 4 4 × Dense R 4 4) (plane : Fin 4 × Fin 4) : Dense R 4 4 × Dense R 4 4 :=
  let (a, v) := state
  let (p, q) := plane
  let off := a.get p q
  if off == 0 then state
  else
    let (c, s) := planeRotation (a.get p p) (a.get q q) off
    let j := planeMatrix p q c s
    (j.transpose.dot (a.dot j), v.dot j)

/-- An orthonormal basis of eigenvectors of a symmetric matrix, as columns. -/
def eigenvectors (a : Dense R 4 4) : Dense R 4 4 := (schedule.foldl rotateSymmetric (a, .identity)).2

def column (a : Dense (Amplitude R) 4 4) (j : Fin 4) : Vector (Amplitude R) 4 := .ofFn fun i => a.get i j

/-- The inner product of two columns. -/
def inner (u v : Vector (Amplitude R) 4) : Amplitude R := Scalar.sumFin fun i : Fin 4 => (u.get i).conj * v.get i

def length (u : Vector (Amplitude R) 4) : R := Scalar.sqrt (Scalar.sumFin fun i : Fin 4 => (u.get i).normSq)

/-- The rotation that makes two columns orthogonal once the phase of their inner product is taken out. -/
def phasedPlane (p q : Fin 4) (phase : Amplitude R) (c s : R) : Dense (Amplitude R) 4 4 :=
  .ofFn fun i j =>
    if i = p ∧ j = p then .ofReal c
    else if i = q ∧ j = q then c • phase.conj
    else if i = p ∧ j = q then .ofReal s
    else if i = q ∧ j = p then (-s) • phase.conj
    else if i = j then 1 else 0

/-- One rotation of the columns of a matrix, and of the basis collected so far. -/
def rotateColumns (state : Dense (Amplitude R) 4 4 × Dense (Amplitude R) 4 4) (plane : Fin 4 × Fin 4) :
    Dense (Amplitude R) 4 4 × Dense (Amplitude R) 4 4 :=
  let (a, v) := state
  let (p, q) := plane
  let left := column a p
  let right := column a q
  let overlap := inner left right
  let size := overlap.norm
  if size == 0 then state
  else
    let (c, s) := planeRotation (inner left left).re (inner right right).re size
    let j := phasedPlane p q (overlap.divReal size) c s
    (a.dot j, v.dot j)

/-- What is left of a column after its parts along unit vectors are taken out. -/
def residual (others : List (Vector (Amplitude R) 4)) (u : Vector (Amplitude R) 4) : Vector (Amplitude R) 4 :=
  others.foldl (fun u w => let z := inner w u; .ofFn fun i => u.get i - z * w.get i) u

/-- The longer of two columns. -/
def longer (u v : Vector (Amplitude R) 4) : Vector (Amplitude R) 4 := if length u < length v then v else u

/-- A unit vector orthogonal to the given ones. -/
def complement (others : List (Vector (Amplitude R) 4)) : Vector (Amplitude R) 4 :=
  let axis (k : Fin 4) : Vector (Amplitude R) 4 := .ofFn fun i => if i = k then 1 else 0
  let best := (List.finRange 4).foldl (fun best k => longer best (residual others (axis k))) (.replicate 4 0)
  let size := length best
  best.map (·.divReal size)

/-- Unit vectors along orthogonal columns; a column of length zero is replaced by a vector orthogonal to the rest. -/
def normalizeColumns (columns : List (Vector (Amplitude R) 4)) : List (Vector (Amplitude R) 4) :=
  let unit (u : Vector (Amplitude R) 4) : Vector (Amplitude R) 4 := let size := length u; u.map (·.divReal size)
  let present := (columns.filter fun u => !(length u == 0)).map unit
  (columns.foldl (fun (done, extra) u =>
    if length u == 0 then
      let w := complement (present ++ extra)
      (w :: done, w :: extra)
    else (unit u :: done, extra)) ([], [])).1.reverse

def singular (a : Dense (Amplitude R) 4 4) : SingularFactors R :=
  let (b, v) := schedule.foldl rotateColumns (a, .identity)
  let columns := (List.finRange 4).map (column b)
  let left := normalizeColumns columns
  { left := .ofFn fun i j => (left.getD j (.replicate 4 0)).get i
    values := .ofFn fun j => length (column b j)
    rightAdjoint := v.dagger }

end CircuitSynthesis.TwoQubit.Jacobi
