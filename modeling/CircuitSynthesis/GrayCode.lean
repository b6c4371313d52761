import CircuitSynthesis.Scalar

/-!
# Gray code

The reflected binary Gray code and the walks along it. Consecutive codes differ in one bit, and a multiplexed rotation
spends one controlled-NOT per such change, so `controlLadder` lists which control drives each of them over one closed
walk through all codes.

In `qsynth-compile`: `encode` is `greyencode`, `setBits` is `svalue`, `toggleWalk` is `flip_state`, `differenceColumn`
is `eta_col` and `controlLadder` is `control_ladder`.
-/

namespace CircuitSynthesis.GrayCode

/-- The reflected binary Gray code of an index. -/
def encode (i : Nat) : Nat := i ^^^ (i >>> 1)

/-- The positions of the set bits, ascending. -/
def setBits (n : Nat) : List Nat := (List.range (n.log2 + 1)).filter n.testBit

/-- The position of the lowest set bit of a positive number. -/
def lowestBit (n : Nat) : Nat := (setBits n).headD 0

/-- How one bit of the code changes along the walk over `dim` codes: `1` where it is set, `-1` where it is cleared, `0`
where another bit changes. Positions count from one at the most significant bit of an index below `dim`; the bit at any
other position never changes. -/
def toggleWalk (position dim : Nat) : List Int :=
  let width := lowestBit (max dim 1)
  if 0 < position ∧ position ≤ width then
    let bit (j : Nat) : Int := if (encode j).testBit (width - position) then 1 else 0
    (List.range (dim - 1)).map fun j => bit (j + 1) - bit j
  else List.replicate (dim - 1) 0

/-- Column `i` of the forward difference operator with `len` rows: `1` in row `i - 1` and `-1` in row `i`, where there
are such rows. -/
def differenceColumn {R : Type} [Scalar R] (len i : Nat) : List R :=
  (List.range len).map fun row => if row = i then -1 else if row + 1 = i then 1 else 0

/-- Writes `bit` over the entries of a ladder at which the walk moves. -/
def markToggles (bit : Nat) : List Int → List Nat → List Nat
  | [], ladder => ladder
  | _ :: _, [] => []
  | t :: walk, b :: ladder => (if t ≠ 0 then bit else b) :: markToggles bit walk ladder

/-- The control bit that changes after each of the `2^k` codes of `k` bits. The last step closes the walk through the
most significant bit. Without control bits there is no step. -/
def controlLadder (k : Nat) : List Nat :=
  if k = 0 then []
  else
    let dim := 2 ^ k
    -- no walk marks the last place, which keeps the highest bit
    let closing := (setBits (encode (dim - 1))).getLastD (k - 1)
    (List.range k).foldl (fun ladder p => markToggles (k - (p + 1)) (toggleWalk (p + 1) dim) ladder)
      (List.replicate dim closing)

end CircuitSynthesis.GrayCode
