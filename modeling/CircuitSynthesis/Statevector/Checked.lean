import CircuitSynthesis.Statevector.Basic

/-!
# Simulation with every index checked

The simulation of `Statevector.applyCircuit` once more, except that an operand, an amplitude or a matrix row that does not
exist ends the computation.

The indices are those of `apply_circuit` and of the functions it calls for `Statevector` in `qsynth-sim`.
-/

namespace CircuitSynthesis

variable {R : Type} [Scalar R] {n : Nat}

namespace Statevector

/-- Writes an amplitude, unless its index is out of range. -/
def write? (s : Statevector R n) (i : Nat) (a : Amplitude R) : Option (Statevector R n) :=
  if h : i < 2 ^ n then some (s.set i a) else none

/-- Exchanges two amplitudes, unless an index is out of range. -/
def exchange? (s : Statevector R n) (i j : Nat) : Option (Statevector R n) := do
  let a ← s[i]?
  let b ← s[j]?
  write? (← write? s i b) j a

/-- One pass over all amplitudes. -/
inductive Sweep (R : Type) where
  /-- Replaces the pairs whose indices differ in the masked bit. -/
  | pairs (mask : Nat) (f : Amplitude R → Amplitude R → Amplitude R × Amplitude R)
  /-- Exchanges the amplitudes of the chosen indices with those of their partners. -/
  | swaps (chosen : Nat → Bool) (partner : Nat → Nat)
  /-- Transforms each amplitude by its index. -/
  | each (f : Nat → Amplitude R → Amplitude R)

namespace Sweep

/-- The pass without checks. -/
def run (s : Statevector R n) : Sweep R → Statevector R n
  | pairs mask f => s.updatePairs mask f
  | swaps chosen partner => s.swapWith chosen partner
  | each f => s.updateEach f

/-- The pass, unless an index is out of range on the way. -/
def run? (s : Statevector R n) : Sweep R → Option (Statevector R n)
  | pairs mask f =>
    (List.range (2 ^ n)).foldlM (fun (s : Statevector R n) i =>
      if i &&& mask = 0 then do
        let (a, b) := f (← s[i]?) (← s[i ||| mask]?)
        write? (← write? s i a) (i ||| mask) b
      else some s) s
  | swaps chosen partner =>
    (List.range (2 ^ n)).foldlM (fun (s : Statevector R n) i =>
      if chosen i then exchange? s i (partner i) else some s) s
  | each f => some (s.updateEach f)

end Sweep

/-- The pass of a fixed gate, unless it lacks an operand. -/
def sweep? (g : StandardGate R) (wires : List Nat) : Option (Sweep R) := do
  let p := wireMask (← wires[0]?)
  match g with
  | .x => return .swaps (fun i => i &&& p = 0) (· ||| p)
  | .y => return .pairs p fun a b => (-Amplitude.i * b, Amplitude.i * a)
  | .z => return turn p Scalar.pi
  | .h =>
    let h : R := 1 / Scalar.sqrt Scalar.two
    return .pairs p fun a b => (h • (a + b), h • (a - b))
  | .s => return turn p (Scalar.pi / Scalar.two)
  | .sdg => return turn p (-Scalar.pi / Scalar.two)
  | .rx t =>
    let c := Scalar.cos (t / Scalar.two)
    let u : Amplitude R := ⟨0, -Scalar.sin (t / Scalar.two)⟩
    return .pairs p fun a b => (c • a + u * b, u * a + c • b)
  | .ry t =>
    let c := Scalar.cos (t / Scalar.two)
    let u := Scalar.sin (t / Scalar.two)
    return .pairs p fun a b => (c • a - u • b, u • a + c • b)
  | .rz t =>
    let low := Amplitude.phase (-t / Scalar.two)
    let high := Amplitude.phase (t / Scalar.two)
    return .each fun i a => if i &&& p = 0 then a * low else a * high
  | .cx =>
    let q := wireMask (← wires[1]?)
    return .swaps (fun i => i &&& p ≠ 0 ∧ i &&& q = 0) (· ||| q)
  | .cz =>
    let q := wireMask (← wires[1]?)
    return .each fun i a => if i &&& p ≠ 0 ∧ i &&& q ≠ 0 then -a else a
  | .swap =>
    let q := wireMask (← wires[1]?)
    return .swaps (fun i => i &&& p ≠ 0 ∧ i &&& q = 0) fun i => (i ^^^ p) ||| q
where
  /-- The pass that turns the amplitudes whose bit is set. -/
  turn (mask : Nat) (angle : R) : Sweep R :=
    let phase := Amplitude.phase angle
    .each fun i a => if i &&& mask ≠ 0 then a * phase else a

/-- Row `r` of a matrix with `size` columns, unless it is not there. -/
def matrixRow? (entries : Array (Amplitude R)) (size r : Nat) : Option (List (Amplitude R)) :=
  if (r + 1) * size ≤ entries.size then some ((List.range size).map fun k => entries.getD (r * size + k) 0) else none

/-- A matrix on the listed wires, unless an index is out of range on the way. -/
def applyMatrix? (wires : List Nat) (entries : Array (Amplitude R)) (s : Statevector R n) : Option (Statevector R n) :=
  let size := 2 ^ wires.length
  let mask := wires.foldl (fun mask q => mask + wireMask q) 0
  let offsets := (List.range size).map (operandOffset wires)
  (List.range (2 ^ n)).foldlM (fun (s : Statevector R n) base =>
    if base &&& mask = 0 then do
      let gathered ← offsets.mapM fun offset => s[base ||| offset]?
      offsets.zipIdx.foldlM (fun (s : Statevector R n) (offset, r) => do
        let row ← matrixRow? entries size r
        write? s (base ||| offset) (Scalar.sum (List.zipWith (· * ·) row gathered))) s
    else some s) s

/-- An instruction, unless an index is out of range on the way. -/
def applyInstruction? (op : Instruction R) (s : Statevector R n) : Option (Statevector R n) :=
  match op.gate with
  | .standard g => do (← sweep? g op.wires).run? s
  | .matrix g => s.applyMatrix? op.wires g.entries

/-- The action of a circuit of the same width, unless an index is out of range on the way. -/
def applyCircuit? (s : Statevector R n) (c : Circuit R) : Option (Except SimulationError (Statevector R n)) :=
  if c.width = n then do
    let s ← c.instructions.toList.foldlM (fun s op => s.applyInstruction? op) s
    if c.phase == 0 then return .ok s
    else
      let phase := Amplitude.phase c.phase
      return .ok (s.map (· * phase))
  else some (.error (.widthMismatch c.width n))

end Statevector

end CircuitSynthesis
