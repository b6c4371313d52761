import CircuitSynthesis.Dense

/-!
# Matrices on one wire

A complex matrix of two rows, the payload of a one-wire gate. Every unitary one is a phase times a product of three
rotations about the third, second and third axis; `zyz` finds the four angles.

In `qsynth-compile` the type is `Unitary2x2`: `hadamard`, `pauliX`, `pauliY`, `pauliZ`, `phaseS` and `phaseSdg` are
its `h`, `x`, `y`, `z`, `s` and `sdg`, `isScalar` is its `is_identity`, `halfPhase` its `global_phase`, `zyz` its
`zyz_decomposition`, `ofDense` and `toDense` are its `from_array` and `to_array`, and `epsilon` is `EPSILON`.
-/

namespace CircuitSynthesis

/-- The matrix with rows `a b` and `c d`. -/
structure Matrix2 (R : Type) where
  a : Amplitude R
  b : Amplitude R
  c : Amplitude R
  d : Amplitude R
  deriving DecidableEq

/-- The four angles of `e^{iφ}·Rz(α)·Ry(β)·Rz(γ)`. -/
structure EulerAngles (R : Type) where
  /-- The rotation applied last. -/
  alpha : R
  beta : R
  /-- The rotation applied first. -/
  gamma : R
  phase : R
  deriving DecidableEq

namespace Matrix2

variable {R : Type} [Scalar R]

def ofReals (a b c d : R) : Matrix2 R := ⟨.ofReal a, .ofReal b, .ofReal c, .ofReal d⟩

def ofDiagonal (top bottom : Amplitude R) : Matrix2 R := ⟨top, 0, 0, bottom⟩

def identity : Matrix2 R := ofReals 1 0 0 1

def hadamard : Matrix2 R := let s := Scalar.sqrtHalf; ofReals s s s (-s)

def pauliX : Matrix2 R := ofReals 0 1 1 0

def pauliY : Matrix2 R := ⟨0, ⟨0, -1⟩, ⟨0, 1⟩, 0⟩

def pauliZ : Matrix2 R := ofReals 1 0 0 (-1)

/-- The diagonal matrix with entries `1, i`. -/
def phaseS : Matrix2 R := ofDiagonal 1 ⟨0, 1⟩

/-- The diagonal matrix with entries `1, -i`. -/
def phaseSdg : Matrix2 R := ofDiagonal 1 ⟨0, -1⟩

/-- The rotation about the second axis. -/
def ry (angle : R) : Matrix2 R :=
  let s := Scalar.sin (angle / Scalar.two)
  let c := Scalar.cos (angle / Scalar.two)
  ofReals c (-s) s c

/-- The rotation about the third axis. -/
def rz (angle : R) : Matrix2 R :=
  ofDiagonal (Amplitude.phase (-angle / Scalar.two)) (Amplitude.phase (angle / Scalar.two))

def map (f : Amplitude R → Amplitude R) (u : Matrix2 R) : Matrix2 R := ⟨f u.a, f u.b, f u.c, f u.d⟩

/-- Every entry multiplied by an amplitude. -/
def scale (u : Matrix2 R) (z : Amplitude R) : Matrix2 R := u.map (· * z)

def dagger (u : Matrix2 R) : Matrix2 R := ⟨u.a.conj, u.c.conj, u.b.conj, u.d.conj⟩

def det (u : Matrix2 R) : Amplitude R := u.a * u.d - u.b * u.c

instance : Mul (Matrix2 R) where
  mul u v := ⟨u.a * v.a + u.b * v.c, u.a * v.b + u.b * v.d, u.c * v.a + u.d * v.c, u.c * v.b + u.d * v.d⟩

/-- The entries, row by row. -/
def entries (u : Matrix2 R) : List (Amplitude R) := [u.a, u.b, u.c, u.d]

/-- The leading block of two rows and two columns. -/
def ofDense {m n : Nat} (hm : 2 ≤ m) (hn : 2 ≤ n) (M : Dense (Amplitude R) m n) : Matrix2 R :=
  ⟨M.get ⟨0, by omega⟩ ⟨0, by omega⟩, M.get ⟨0, by omega⟩ ⟨1, by omega⟩,
    M.get ⟨1, by omega⟩ ⟨0, by omega⟩, M.get ⟨1, by omega⟩ ⟨1, by omega⟩⟩

/-- The same matrix in dense form. -/
def toDense (u : Matrix2 R) : Dense (Amplitude R) 2 2 :=
  .ofFn fun i j => if i = 0 then (if j = 0 then u.a else u.b) else (if j = 0 then u.c else u.d)

/-- Entries below this modulus count as zero. -/
def epsilon : R := 1e-10

/-- Whether the matrix is a multiple of the identity. -/
def isScalar (u : Matrix2 R) : Bool := u.b.norm < epsilon && u.c.norm < epsilon && (u.a - u.d).norm < epsilon

/-- Half the angle of the determinant. Dividing by that phase leaves determinant one. -/
def halfPhase (u : Matrix2 R) : R := u.det.arg / Scalar.two

/-- The Euler angles, `β` between zero and half a turn. Where only the sum or the difference of `α` and `γ` is fixed,
it is shared evenly. -/
def zyz (u : Matrix2 R) : EulerAngles R :=
  let phase := u.halfPhase
  let v := u.scale (Amplitude.phase (-phase))
  let beta := Scalar.two * Scalar.atan2 v.c.norm v.a.norm
  let halfSum := -v.a.arg
  let halfDifference := v.c.arg
  -- the argument of an entry that counts as zero says nothing
  if v.c.norm < epsilon then ⟨halfSum, 0, halfSum, phase⟩
  else if v.a.norm < epsilon then ⟨halfDifference, beta, -halfDifference, phase⟩
  else ⟨halfSum + halfDifference, beta, halfSum - halfDifference, phase⟩

end Matrix2

end CircuitSynthesis
