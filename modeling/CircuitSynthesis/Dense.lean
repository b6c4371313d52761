import CircuitSynthesis.Amplitude

/-!
# Dense matrices

A matrix is a vector of rows whose dimensions are part of its type, so every access is in range. `get_ofFn` and `ext`
say that a matrix is determined by its entries. The operator toolkit of synthesis follows: products, adjoints, Kronecker
products, determinants of small matrices, and the two quantities by which inputs are judged, the distance of `U·U†`
from the identity and the largest entry off the diagonal.

In `qsynth-compile` matrices are of the types `Array2` and `Matrix4`, and `dagger`, `kron`, `unitarityDeviation` and
`maxOffDiagonal` are `dagger`, `kron`, `unitarity_deviation` and `max_off_diagonal`.
-/

namespace CircuitSynthesis

/-- A matrix with `m` rows and `n` columns. -/
structure Dense (α : Type) (m n : Nat) where
  /-- The rows, from the top. -/
  rows : Vector (Vector α n) m
  deriving DecidableEq

namespace Dense

variable {α β : Type} {m n k l : Nat}

/-- The matrix with the given entries. -/
def ofFn (f : Fin m → Fin n → α) : Dense α m n := ⟨Vector.ofFn fun i => Vector.ofFn fun j => f i j⟩

/-- The matrix of a list of rows, if there are `m` of them with `n` entries each. -/
def ofRows? (m n : Nat) (rows : List (List α)) : Option (Dense α m n) := do
  let rows ← rows.mapM fun row => if h : row.toArray.size = n then some (⟨row.toArray, h⟩ : Vector α n) else none
  if h : rows.toArray.size = m then return ⟨⟨rows.toArray, h⟩⟩ else none

def toRows (M : Dense α m n) : List (List α) := M.rows.toList.map Vector.toList

/-- The entry in row `i` and column `j`. -/
def get (M : Dense α m n) (i : Fin m) (j : Fin n) : α := M.rows[i][j]

/-- Entries that are computed one by one are the entries. -/
@[simp] theorem get_ofFn (f : Fin m → Fin n → α) (i : Fin m) (j : Fin n) : (ofFn f).get i j = f i j := by
  simp [get, ofFn]

/-- Matrices with the same entries are equal. -/
@[ext] theorem ext {M N : Dense α m n} (h : ∀ i j, M.get i j = N.get i j) : M = N := by
  cases M with
  | mk rows =>
    cases N with
    | mk rows' =>
      congr 1
      apply Vector.ext
      intro i hi
      apply Vector.ext
      intro j hj
      exact h ⟨i, hi⟩ ⟨j, hj⟩

def map (f : α → β) (M : Dense α m n) : Dense β m n := ofFn fun i j => f (M.get i j)

def transpose (M : Dense α m n) : Dense α n m := ofFn fun i j => M.get j i

/-- The same matrix under equal dimensions. -/
def cast (hm : m = k) (hn : n = l) (M : Dense α m n) : Dense α k l :=
  ofFn fun i j => M.get (i.cast hm.symm) (j.cast hn.symm)

/-- The entries on the main diagonal, from the top. -/
def diagonal (M : Dense α m n) : List α :=
  (List.finRange (min m n)).map fun i => M.get (i.castLE (Nat.min_le_left m n)) (i.castLE (Nat.min_le_right m n))

/-- The matrix with the given diagonal and zeros elsewhere. -/
def ofDiagonal [Zero α] (d : Fin n → α) : Dense α n n := ofFn fun i j => if i = j then d i else 0

def identity [Zero α] [One α] : Dense α n n := ofDiagonal fun _ => 1

instance [Sub α] : Sub (Dense α m n) := ⟨fun M N => ofFn fun i j => M.get i j - N.get i j⟩

def dot [Zero α] [Add α] [Mul α] (M : Dense α m k) (N : Dense α k n) : Dense α m n :=
  ofFn fun i j => Scalar.sumFin fun x => M.get i x * N.get x j

def mulVec [Zero α] [Add α] [Mul α] (M : Dense α m n) (v : Fin n → α) : Vector α m :=
  Vector.ofFn fun i => Scalar.sumFin fun x => M.get i x * v x

/-- The Kronecker product; the left factor acts on the more significant part of an index. -/
def kron [Mul α] (M : Dense α m n) (N : Dense α k l) : Dense α (m * k) (n * l) :=
  ofFn fun i j =>
    have hk : 0 < k := Nat.pos_of_ne_zero fun h => by have := i.isLt; simp [h] at this
    have hl : 0 < l := Nat.pos_of_ne_zero fun h => by have := j.isLt; simp [h] at this
    M.get ⟨i / k, Nat.div_lt_of_lt_mul (Nat.mul_comm m k ▸ i.isLt)⟩ ⟨j / l, Nat.div_lt_of_lt_mul (Nat.mul_comm n l ▸ j.isLt)⟩ *
      N.get ⟨i % k, Nat.mod_lt _ hk⟩ ⟨j % l, Nat.mod_lt _ hl⟩

/-- The determinant of a matrix of four rows, by pairing the minors of its upper and its lower half. -/
def det4 [Add α] [Sub α] [Mul α] (M : Dense α 4 4) : α :=
  let upper (i j : Fin 4) := M.get 0 i * M.get 1 j - M.get 1 i * M.get 0 j
  let lower (i j : Fin 4) := M.get 2 i * M.get 3 j - M.get 3 i * M.get 2 j
  upper 0 1 * lower 2 3 - upper 0 2 * lower 1 3 + upper 0 3 * lower 1 2 + upper 1 2 * lower 0 3 -
    upper 1 3 * lower 0 2 + upper 2 3 * lower 0 1

section Complex

variable {R : Type} [Scalar R]

def dagger (M : Dense (Amplitude R) m n) : Dense (Amplitude R) n m := ofFn fun i j => (M.get j i).conj

/-- Every entry multiplied by an amplitude. -/
def scale (z : Amplitude R) (M : Dense (Amplitude R) m n) : Dense (Amplitude R) m n := M.map (· * z)

def complexify (M : Dense R m n) : Dense (Amplitude R) m n := M.map Amplitude.ofReal

/-- The sum of the squared moduli of all entries. -/
def normSq (M : Dense (Amplitude R) m n) : R :=
  Scalar.sumFin fun i => Scalar.sumFin fun j => (M.get i j).normSq

def norm (M : Dense (Amplitude R) m n) : R := Scalar.sqrt M.normSq

/-- The Frobenius distance of `U·U†` from the identity. Scaling the product by one as an amplitude changes no finite
entry, and leaves no number where an entry is not finite. -/
def unitarityDeviation (U : Dense (Amplitude R) m n) : R := ((U.dot U.dagger).scale 1 - identity).norm

/-- The largest modulus of an entry off the diagonal. -/
def maxOffDiagonal (M : Dense (Amplitude R) m n) : R :=
  Fin.foldl m (fun best i => Fin.foldl n (fun best j =>
    if i.val = j.val then best else Scalar.maximum best (M.get i j).norm) best) 0

end Complex

end Dense

end CircuitSynthesis
