import CircuitSynthesis.Dense
import CircuitSynthesis.GrayCode
import CircuitSynthesis.SynthesisError

/-!
# Sign tables

A multiplexed rotation with `k` controls is a ladder of `2^k` rotations with angles `θ`. Control value `x` sees the
angle `α x = Σ j, (-1)^(weight of x and code j) · θ j`, so finding `θ` from `α` is solving with a Walsh matrix whose
columns stand in Gray order. The inverse of that matrix is its transpose over `2^k`. `SignTable.solve` applies it and
then checks the solution against the first angle and the differences of all angles. A `SignTableCache` holds one table
per width.

In `qsynth-compile`, for `SignTable`: `build` is `new`, with `signMatrix` and `differenceOperator` as its matrices `m`
and `e`, and `solve` is `solve`. `SignTableCache` has its name there, `get` is `get` and `size` is `len`.
-/

namespace CircuitSynthesis

/-- The number of bits set in both numbers. -/
def commonWeight (x y : Nat) : Nat := (GrayCode.setBits (x &&& y)).length

/-- The sign with which step `j` of the ladder enters the angle of control value `x`. -/
def walshSign {R : Type} [Scalar R] (x j : Nat) : R := if commonWeight x (GrayCode.encode j) % 2 = 0 then 1 else -1

/-- The sign data of a rotation that spans `width` wires, its target included. -/
structure SignTable (R : Type) (width : Nat) where
  /-- The inverse sign matrix, a row per step and a column per control value. -/
  inverse : Dense R (2 ^ (width - 1)) (2 ^ (width - 1))
  /-- What takes the angles of the steps to the differences between neighbouring control values. -/
  forward : Dense R (2 ^ (width - 1) - 1) (2 ^ (width - 1))
  /-- The control that drives the controlled-NOT after each step. -/
  ladder : List Nat
  deriving DecidableEq

namespace SignTable

variable {R : Type} [Scalar R] {width : Nat}

/-- The signs of a number of control values, a row for each of them and a column for each step. -/
def signMatrix (dim : Nat) : Dense R dim dim := .ofFn fun x j => walshSign x j

/-- The forward difference operator with `len` rows, put together column by column. -/
def differenceOperator (len n : Nat) : Dense R len n :=
  let column (i : Fin n) : Vector R len :=
    ⟨(GrayCode.differenceColumn len i).toArray, by simp [GrayCode.differenceColumn]⟩
  Dense.transpose ⟨.ofFn column⟩

/-- The table of a width. -/
def build (width : Nat) : SignTable R width where
  inverse :=
    let scale : R := 1 / ((2 ^ (width - 1) : Nat) : R)
    .ofFn fun j x => scale * walshSign x j
  forward := (differenceOperator (2 ^ (width - 1) - 1) (2 ^ (width - 1))).dot (signMatrix (2 ^ (width - 1)))
  ladder := GrayCode.controlLadder (width - 1)

/-- The angles of the steps whose combination is `alpha`. A result that does not reproduce the first angle and the
differences between neighbours is refused. -/
def solve (table : SignTable R width) (alpha : List R) :
    Except (SynthesisError R) (Vector R (2 ^ (width - 1))) :=
  if h : alpha.length = 2 ^ (width - 1) then
    let angle (x : Fin (2 ^ (width - 1))) : R := alpha.get (x.cast h.symm)
    let theta : Vector R (2 ^ (width - 1)) := .ofFn fun j => Scalar.laneSum fun x => table.inverse.get j x * angle x
    let largest := alpha.foldl (fun best a => Scalar.maximum best (Scalar.abs a)) 0
    let limit := 1e-9 * (1 + largest) * ((2 ^ (width - 1) : Nat) : R)
    let off (error : R) : Bool := !Scalar.isFinite error || limit < error
    -- the sum of all steps is the angle of control value zero, since every sign of its row is one
    let boundary := Scalar.abs (Scalar.laneSum theta.get - angle ⟨0, Nat.two_pow_pos _⟩)
    if off boundary then .error (.overflow .signSolve 0 boundary)
    else
      let difference (i : Fin (2 ^ (width - 1) - 1)) : R := Scalar.laneSum fun j => table.forward.get i j * theta[j]
      let residual (i : Fin (2 ^ (width - 1) - 1)) : R :=
        Scalar.abs (difference i - (angle ⟨i + 1, by omega⟩ - angle ⟨i, by omega⟩))
      match (List.finRange (2 ^ (width - 1) - 1)).find? fun i => off (residual i) with
      | some i => .error (.overflow .signSolve (i + 1) (residual i))
      | none => .ok theta
  else .error (.shape (.angleCount width (2 ^ (width - 1)) alpha.length))

end SignTable

/-- The tables built so far, at most one per width. -/
structure SignTableCache (R : Type) where
  /-- The widths and their tables, in the order in which they were built. -/
  tables : List ((width : Nat) × SignTable R width)

namespace SignTableCache

variable {R : Type} [Scalar R]

def empty : SignTableCache R := ⟨[]⟩

def size (cache : SignTableCache R) : Nat := cache.tables.length

/-- Finds the table of a width. -/
def lookup? (width : Nat) : List ((width : Nat) × SignTable R width) → Option (SignTable R width)
  | [] => none
  | ⟨w, table⟩ :: rest => if h : w = width then some (h ▸ table) else lookup? width rest

/-- The table of a width, and the cache that holds it. -/
def get (cache : SignTableCache R) (width : Nat) : SignTable R width × SignTableCache R :=
  match lookup? width cache.tables with
  | some table => (table, cache)
  | none =>
    let table := SignTable.build width
    (table, ⟨cache.tables ++ [⟨width, table⟩]⟩)

end SignTableCache

/-- A synthesis: it may fail, and what it adds to the cache of sign tables is kept in either case. -/
abbrev Synthesis (R : Type) := ExceptT (SynthesisError R) (StateM (SignTableCache R))

/-- The sign table of a width, from the cache. -/
def Synthesis.table {R : Type} [Scalar R] (width : Nat) : Synthesis R (SignTable R width) :=
  modifyGet fun cache => cache.get width

end CircuitSynthesis
