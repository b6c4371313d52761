import CircuitSynthesis.Circuit.Gate

/-!
# State vectors and the gates on them

A state of `n` wires is a vector of `2^n` amplitudes. Each fixed gate has a kernel that updates the amplitudes in place:
diagonal gates multiply single amplitudes, the others replace pairs of amplitudes whose indices differ in one bit. A
matrix gate gathers the amplitudes of its operands, multiplies, and scatters the result. Operands are not checked here.

In `qsynth-sim`, for `Statevector`: `applyX`, `applyY`, `applyH`, `applyPhase`, `applyRx`, `applyRy`, `applyRz`,
`applyCx`, `applyCz` and `applySwap` are `apply_x` to `apply_swap`, `applyMatrix` is `apply_matrix`, `applyStandard`
is `apply_standard_gate` and `apply` is `apply`.
-/

namespace CircuitSynthesis

/-- The amplitudes of a state of `n` wires; wire `q` is bit `q` of an index. -/
abbrev Statevector (R : Type) (n : Nat) := Vector (Amplitude R) (2 ^ n)

namespace Statevector

variable {R : Type} [Scalar R] {n : Nat}

def wireMask (q : Nat) : Nat := 1 <<< q

/-- Replaces every pair of amplitudes whose indices differ in the masked bit, the one without the bit first. -/
@[inline] def updatePairs (mask : Nat) (f : Amplitude R → Amplitude R → Amplitude R × Amplitude R) (s : Statevector R n) :
    Statevector R n :=
  Fin.foldl (2 ^ n) (fun s i =>
    if i.val &&& mask = 0 then
      let j := i.val ||| mask
      let (a, b) := f s[i] (s.getD j 0)
      (s.set i a).setIfInBounds j b
    else s) s

/-- Exchanges the amplitudes of the chosen indices with those of their partners, in ascending order. -/
@[inline] def swapWith (chosen : Nat → Bool) (partner : Nat → Nat) (s : Statevector R n) : Statevector R n :=
  Fin.foldl (2 ^ n) (fun s i => if chosen i then s.swapIfInBounds i (partner i) else s) s

/-- Transforms each amplitude by its index. -/
@[inline] def updateEach (f : Nat → Amplitude R → Amplitude R) (s : Statevector R n) : Statevector R n := s.mapIdx f

def applyX (q : Nat) (s : Statevector R n) : Statevector R n :=
  let mask := wireMask q
  s.swapWith (fun i => i &&& mask = 0) (· ||| mask)

def applyY (q : Nat) (s : Statevector R n) : Statevector R n :=
  s.updatePairs (wireMask q) fun a b => (-Amplitude.i * b, Amplitude.i * a)

def applyH (q : Nat) (s : Statevector R n) : Statevector R n :=
  let h : R := 1 / Scalar.sqrt Scalar.two
  s.updatePairs (wireMask q) fun a b => (h • (a + b), h • (a - b))

/-- The gate that turns the amplitudes whose bit is set by an angle. -/
def applyPhase (q : Nat) (angle : R) (s : Statevector R n) : Statevector R n :=
  let mask := wireMask q
  let phase := Amplitude.phase angle
  s.updateEach fun i a => if i &&& mask ≠ 0 then a * phase else a

def applyRx (q : Nat) (angle : R) (s : Statevector R n) : Statevector R n :=
  let c := Scalar.cos (angle / Scalar.two)
  let t : Amplitude R := ⟨0, -Scalar.sin (angle / Scalar.two)⟩
  s.updatePairs (wireMask q) fun a b => (c • a + t * b, t * a + c • b)

def applyRy (q : Nat) (angle : R) (s : Statevector R n) : Statevector R n :=
  let c := Scalar.cos (angle / Scalar.two)
  let t := Scalar.sin (angle / Scalar.two)
  s.updatePairs (wireMask q) fun a b => (c • a - t • b, t • a + c • b)

def applyRz (q : Nat) (angle : R) (s : Statevector R n) : Statevector R n :=
  let mask := wireMask q
  let low := Amplitude.phase (-angle / Scalar.two)
  let high := Amplitude.phase (angle / Scalar.two)
  s.updateEach fun i a => if i &&& mask = 0 then a * low else a * high

def applyCx (control target : Nat) (s : Statevector R n) : Statevector R n :=
  let c := wireMask control
  let t := wireMask target
  s.swapWith (fun i => i &&& c ≠ 0 ∧ i &&& t = 0) (· ||| t)

def applyCz (control target : Nat) (s : Statevector R n) : Statevector R n :=
  let c := wireMask control
  let t := wireMask target
  s.updateEach fun i a => if i &&& c ≠ 0 ∧ i &&& t ≠ 0 then -a else a

def applySwap (p q : Nat) (s : Statevector R n) : Statevector R n :=
  let mp := wireMask p
  let mq := wireMask q
  s.swapWith (fun i => i &&& mp ≠ 0 ∧ i &&& mq = 0) fun i => (i ^^^ mp) ||| mq

/-- The sum of the masks of the operands whose bits are set in `value`. -/
def operandOffset : List Nat → Nat → Nat
  | [], _ => 0
  | q :: rest, value => (if value % 2 = 1 then wireMask q else 0) + operandOffset rest (value / 2)

/-- A matrix in row-major order on the listed wires; operand `k` is bit `k` of the matrix index. -/
def applyMatrix (wires : List Nat) (entries : Array (Amplitude R)) (s : Statevector R n) : Statevector R n :=
  let size := 2 ^ wires.length
  let mask := wires.foldl (fun mask q => mask + wireMask q) 0
  let offsets := (List.range size).map (operandOffset wires)
  Fin.foldl (2 ^ n) (fun s base =>
    if base.val &&& mask = 0 then
      let gathered := offsets.map fun offset => s.getD (base.val ||| offset) 0
      offsets.zipIdx.foldl (fun s (offset, row) =>
        let z := Scalar.sum (gathered.zipIdx.map fun (a, k) => entries.getD (row * size + k) 0 * a)
        s.setIfInBounds (base.val ||| offset) z) s
    else s) s

/-- A fixed gate on the listed wires. A gate that lacks an operand does nothing. -/
def applyStandard (g : StandardGate R) (wires : List Nat) (s : Statevector R n) : Statevector R n :=
  match g, wires with
  | .x, q :: _ => s.applyX q
  | .y, q :: _ => s.applyY q
  | .z, q :: _ => s.applyPhase q Scalar.pi
  | .h, q :: _ => s.applyH q
  | .s, q :: _ => s.applyPhase q (Scalar.pi / Scalar.two)
  | .sdg, q :: _ => s.applyPhase q (-Scalar.pi / Scalar.two)
  | .rx t, q :: _ => s.applyRx q t
  | .ry t, q :: _ => s.applyRy q t
  | .rz t, q :: _ => s.applyRz q t
  | .cx, p :: q :: _ => s.applyCx p q
  | .cz, p :: q :: _ => s.applyCz p q
  | .swap, p :: q :: _ => s.applySwap p q
  | _, _ => s

def apply (op : Instruction R) (s : Statevector R n) : Statevector R n :=
  match op.gate with
  | .standard g => s.applyStandard g op.wires
  | .matrix g => s.applyMatrix op.wires g.entries

end Statevector

end CircuitSynthesis
