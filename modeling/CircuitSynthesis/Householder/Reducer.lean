import CircuitSynthesis.Dense
import CircuitSynthesis.SynthesisError

/-!
# Householder reduction

A matrix is reduced one column at a time. `Reducer.step` clears the next column below the diagonal by a reflection
`I − 2uu†` and hands the reflection back, or reports that the column was clear already. The reducer moves past a column
also when its reduction fails.

In `qsynth-compile` the reducer is `HouseholderQr`: `ofDense` is its `new`, `isDone` its `is_done` and `step` its
`step`. `Reflector` has its name there, `minColumnNorm` is `MIN_COLUMN_NORM` and `reducedRatio` is `REDUCED_RATIO`.
-/

namespace CircuitSynthesis.Householder

variable {R : Type} [Scalar R] {m n : Nat}

/-- The reflection `I − 2uu†`. -/
structure Reflector (R : Type) (m : Nat) where
  column : Nat
  /-- The unit vector `u`, zero above that column. -/
  vector : Vector (Amplitude R) m
  deriving DecidableEq

def Reflector.matrix (r : Reflector R m) : Dense (Amplitude R) m m :=
  .ofFn fun i j => Amplitude.ofReal (if i = j then 1 else 0) - ((Scalar.two : R) • r.vector.get i) * (r.vector.get j).conj

/-- A matrix on its way to triangular form. -/
structure Reducer (R : Type) (m n : Nat) where
  work : Dense (Amplitude R) m n
  next : Nat
  deriving DecidableEq

/-- A reduction: it may fail, and the reducer has moved on in either case. -/
abbrev Reduction (R : Type) (m n : Nat) := ExceptT (SynthesisError R) (StateM (Reducer R m n))

/-- Columns of a smaller norm cannot be reduced. -/
def minColumnNorm : R := 1e-300

/-- A column counts as reduced if its part below the diagonal is smaller than this share of it. -/
def reducedRatio : R := 1e-14

/-- A vector from row `j` on, zero above it. -/
def fromRow (j : Nat) (f : Fin m → Amplitude R) (i : Fin m) : Amplitude R := if i < j then 0 else f i

/-- The sum of the squared moduli from row `j` on. -/
def tailNormSq (j : Nat) (f : Fin m → Amplitude R) : R :=
  Scalar.sumFin fun i : Fin m => if i < j then 0 else (f i).normSq

/-- The inner product from row `j` on. -/
def tailInner (j : Nat) (f g : Fin m → Amplitude R) : Amplitude R :=
  Scalar.sumFin fun i : Fin m => if i < j then 0 else (f i).conj * g i

/-- Refuses a norm that is not finite or too small to divide by. -/
def checkNorm (column : Nat) (norm : R) : Except (SynthesisError R) Unit :=
  if !Scalar.isFinite norm || norm < minColumnNorm then .error (.overflow .householder column norm) else .ok ()

/-- The matrix with column `j` cleared below row `j`. -/
def clearBelow (j : Nat) (work : Dense (Amplitude R) m n) : Dense (Amplitude R) m n :=
  .ofFn fun r c => if c.val = j ∧ j < r.val then 0 else work.get r c

/-- The reflection along `u` applied from row and column `j` on, with column `j` set to `alpha` over zeros. -/
def reflectFrom (j : Fin n) (u : Fin m → Amplitude R) (alpha : Amplitude R) (work : Dense (Amplitude R) m n) :
    Dense (Amplitude R) m n :=
  let projections : Vector (Amplitude R) n := .ofFn fun c => tailInner j u fun i => work.get i c
  .ofFn fun r c =>
    if r.val < j.val ∨ c < j then work.get r c
    else if c = j then (if r.val = j.val then alpha else 0)
    else work.get r c - ((Scalar.two : R) • u r) * projections.get c

namespace Reducer

/-- A matrix of which nothing is reduced. -/
def ofDense (a : Dense (Amplitude R) m n) : Reducer R m n := ⟨a, 0⟩

/-- Whether every column that can be reduced has been. -/
def isDone (q : Reducer R m n) : Bool := min m n ≤ q.next

/-- Reduces column `j`: the matrix afterwards, and the reflector unless the column was clear already. -/
def reduceColumn (work : Dense (Amplitude R) m n) (j : Nat) (hm : j < m) (hn : j < n) :
    Except (SynthesisError R) (Dense (Amplitude R) m n × Option (Reflector R m)) := do
  let x (i : Fin m) : Amplitude R := work.get i ⟨j, hn⟩
  let norm := Scalar.sqrt (tailNormSq j x)
  checkNorm j norm
  let below := Scalar.sqrt (tailNormSq (j + 1) x)
  if below ≤ reducedRatio * norm then return (clearBelow j work, none)
  else
    -- opposite to the entry, so that the subtraction that gives `v` cancels nothing
    let alpha := norm • (-Amplitude.phase (x ⟨j, hm⟩).arg)
    let v (i : Fin m) : Amplitude R := if i.val = j then x i - alpha else x i
    let length := Scalar.sqrt (tailNormSq j v)
    checkNorm j length
    let u : Vector (Amplitude R) m := .ofFn (fromRow j fun i => (v i).divReal length)
    return (reflectFrom ⟨j, hn⟩ (u.get) alpha work, some ⟨j, u⟩)

def step : Reduction R m n (Option (Reflector R m)) := do
  let q ← get
  if h : q.next < m ∧ q.next < n then
    -- moves on first, so that a failure below leaves the reducer past this column
    set { q with next := q.next + 1 }
    let (work, reflector) ← reduceColumn q.work q.next h.1 h.2
    set (⟨work, q.next + 1⟩ : Reducer R m n)
    return reflector
  else throw (.shape (.noColumnLeft m n))

/-- Reduces a number of columns, collecting what each step returns. -/
def steps : Nat → Reduction R m n (List (Option (Reflector R m)))
  | 0 => return []
  | count + 1 => return (← step) :: (← steps count)

end Reducer

end CircuitSynthesis.Householder
