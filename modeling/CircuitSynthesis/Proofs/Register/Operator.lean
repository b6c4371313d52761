import Mathlib
import CircuitSynthesis.Program
import CircuitSynthesis.Proofs.Exact.Matrix2
import CircuitSynthesis.Proofs.Register.Wire

/-!
# The operator of a program

Every gate of a program is an operator on one wire: a controlled-NOT applies `X` to its target where its control reads
one. A list of gates acts in order, so that its operator is the product in reverse order, and a program multiplies it by
its global phase. `gatesOperator_inverse` says that the inverted list has the adjoint operator, and
`gatesOperator_mem_unitary` that gates on distinct wires whose matrices are unitary have a unitary operator.
-/

namespace CircuitSynthesis

open Matrix

/-- The rotation by an angle about an axis. -/
noncomputable def Axis.rotation : Axis → ℝ → Matrix Bool Bool ℂ
  | y, t => (Matrix2.ry t).toMatrix
  | z, t => (Matrix2.rz t).toMatrix

/-- The matrix that exchanges the two values of a wire. -/
noncomputable def exchange : Matrix Bool Bool ℂ := (Matrix2.pauliX : Matrix2 ℝ).toMatrix

namespace ElementaryGate

/-- The wire that a gate changes. -/
def target : ElementaryGate ℝ → ℕ
  | unitary wire _ => wire
  | rotation wire _ _ => wire
  | entangler _ target => target

/-- What a gate does to its target where the wires read as in `i`. -/
noncomputable def block : ElementaryGate ℝ → ℕ → Matrix Bool Bool ℂ
  | unitary _ u, _ => u.toMatrix
  | rotation _ axis t, _ => axis.rotation t
  | entangler control _, i => if i.testBit control then exchange else 1

/-- The operator of a gate on a register of `n` wires. -/
noncomputable def operator (n : ℕ) (g : ElementaryGate ℝ) : Matrix (Fin (2 ^ n)) (Fin (2 ^ n)) ℂ :=
  wireOperator n g.target g.block

/-- Whether a gate lies within `n` wires and does not control itself. -/
def Fits (n : ℕ) : ElementaryGate ℝ → Prop
  | unitary wire _ => wire < n
  | rotation wire _ _ => wire < n
  | entangler control target => control < n ∧ target < n ∧ control ≠ target

/-- Whether the matrix of a gate, if it has one, is unitary. -/
def IsUnitary : ElementaryGate ℝ → Prop
  | unitary _ u => u.toMatrix ∈ Matrix.unitaryGroup Bool ℂ
  | _ => True

end ElementaryGate

/-- The operator of a list of gates, the first of which acts first. -/
noncomputable def gatesOperator (n : ℕ) : List (ElementaryGate ℝ) → Matrix (Fin (2 ^ n)) (Fin (2 ^ n)) ℂ
  | [] => 1
  | g :: gates => gatesOperator n gates * g.operator n

/-- The operator of a list of gates with a phase. -/
noncomputable def phasedOperator (n : ℕ) (r : List (ElementaryGate ℝ) × ℝ) : Matrix (Fin (2 ^ n)) (Fin (2 ^ n)) ℂ :=
  Complex.exp (r.2 * Complex.I) • gatesOperator n r.1

/-- The operator of a program: its gates in order, times the global phase. -/
noncomputable def Program.operator (p : Program ℝ) : Matrix (Fin (2 ^ p.width)) (Fin (2 ^ p.width)) ℂ :=
  p.phaseFactor.toComplex • gatesOperator p.width p.gates

section Lists

variable {n : ℕ}

@[simp] lemma gatesOperator_nil : gatesOperator n [] = 1 := rfl

/-- The gate that acts first stands on the right. -/
lemma gatesOperator_cons (g : ElementaryGate ℝ) (gates : List (ElementaryGate ℝ)) :
    gatesOperator n (g :: gates) = gatesOperator n gates * g.operator n := rfl

/-- Gates in two parts multiply, the first part on the right. -/
@[simp] lemma gatesOperator_append (gates gates' : List (ElementaryGate ℝ)) :
    gatesOperator n (gates ++ gates') = gatesOperator n gates' * gatesOperator n gates := by
  induction gates with
  | nil => rw [List.nil_append, gatesOperator_nil, Matrix.mul_one]
  | cons g gates ih => rw [List.cons_append, gatesOperator_cons, gatesOperator_cons, ih, Matrix.mul_assoc]

/-- A single gate has its own operator. -/
lemma gatesOperator_singleton (g : ElementaryGate ℝ) : gatesOperator n [g] = g.operator n := by
  rw [gatesOperator_cons, gatesOperator_nil, Matrix.one_mul]

/-- The operator of gates with a phase. -/
lemma phasedOperator_mk (gates : List (ElementaryGate ℝ)) (t : ℝ) :
    phasedOperator n (gates, t) = Complex.exp (t * Complex.I) • gatesOperator n gates := rfl

/-- Lists are appended and their phases added. -/
lemma phasedOperator_append (gates gates' : List (ElementaryGate ℝ)) (s t : ℝ) :
    phasedOperator n (gates ++ gates', s + t) = phasedOperator n (gates', t) * phasedOperator n (gates, s) := by
  rw [phasedOperator_mk, phasedOperator_mk, phasedOperator_mk, gatesOperator_append, Matrix.smul_mul, Matrix.mul_smul,
    smul_smul, add_comm, Complex.exp_ofReal_add_mul_I]

/-- A phase may be taken out in parts. -/
lemma phasedOperator_add (gates : List (ElementaryGate ℝ)) (s t : ℝ) :
    phasedOperator n (gates, s + t) = Complex.exp (s * Complex.I) • phasedOperator n (gates, t) := by
  rw [phasedOperator_mk, phasedOperator_mk, smul_smul, Complex.exp_ofReal_add_mul_I]

/-- The operator of a program is that of its gates with its global phase. -/
lemma Program.operator_eq_phasedOperator (p : Program ℝ) : p.operator = phasedOperator p.width (p.gates, p.phase) := by
  rw [operator, phaseFactor, Amplitude.toComplex_phase, phasedOperator_mk]

end Lists

section Rotations

variable (axis : Axis) (s t : ℝ)

/-- The rotation about the third axis turns the two values apart. -/
lemma rotation_z : Axis.z.rotation t =
    diagonal fun b => Complex.exp ((if b then t / 2 else -t / 2 : ℝ) * Complex.I) := by
  ext a b
  cases a <;> cases b <;> simp [Axis.rotation, Matrix2.toMatrix, Matrix2.rz, Matrix2.ofDiagonal]

/-- The entries of the rotation about the second axis. -/
lemma rotation_y_apply (a b : Bool) : Axis.y.rotation t a b =
    ((if a = b then Real.cos (t / 2) else if a then Real.sin (t / 2) else -Real.sin (t / 2) : ℝ) : ℂ) := by
  cases a <;> cases b <;> simp [Axis.rotation, Matrix2.toMatrix, Matrix2.ry, Matrix2.ofReals]

/-- The entries of the exchange. -/
lemma exchange_apply (a b : Bool) : exchange a b = if a = b then 0 else 1 := by
  cases a <;> cases b <;> simp [exchange, Matrix2.toMatrix, Matrix2.pauliX, Matrix2.ofReals]

/-- A rotation by no angle is the identity. -/
@[simp] lemma rotation_zero : axis.rotation 0 = 1 := by
  cases axis with
  | y =>
    ext a b
    rw [rotation_y_apply]
    cases a <;> cases b <;> simp
  | z =>
    rw [rotation_z]
    ext a b
    cases a <;> cases b <;> simp

/-- Rotations about one axis add their angles. -/
lemma rotation_add : axis.rotation (s + t) = axis.rotation s * axis.rotation t := by
  cases axis with
  | y =>
    have hhalf : (s + t) / 2 = s / 2 + t / 2 := by ring
    ext a b
    rw [Matrix.mul_apply, Fintype.sum_bool]
    simp only [rotation_y_apply, hhalf, Real.cos_add, Real.sin_add]
    cases a <;> cases b <;> push_cast <;> simp <;> ring
  | z =>
    rw [rotation_z, rotation_z, rotation_z, diagonal_mul_diagonal]
    congr 1
    funext b
    rw [← Complex.exp_add]
    congr 1
    cases b <;> simp <;> ring

/-- Exchanging the two values turns a rotation around. -/
lemma rotation_mul_exchange : axis.rotation t * exchange = exchange * axis.rotation (-t) := by
  ext a b
  rw [Matrix.mul_apply, Matrix.mul_apply, Fintype.sum_bool, Fintype.sum_bool]
  cases axis with
  | y =>
    simp only [rotation_y_apply, exchange_apply]
    cases a <;> cases b <;> simp [neg_div]
  | z =>
    simp only [rotation_z, exchange_apply]
    cases a <;> cases b <;> simp

/-- Exchanging twice does nothing. -/
@[simp] lemma exchange_mul_exchange : exchange * exchange = 1 := by
  ext a b
  rw [Matrix.mul_apply, Fintype.sum_bool]
  simp only [exchange_apply]
  cases a <;> cases b <;> simp

/-- The adjoint of a rotation turns back. -/
lemma rotation_conjTranspose : (axis.rotation t)ᴴ = axis.rotation (-t) := by
  cases axis with
  | y =>
    ext a b
    rw [conjTranspose_apply, rotation_y_apply, rotation_y_apply, Complex.star_def, Complex.conj_ofReal]
    cases a <;> cases b <;> simp [neg_div]
  | z =>
    rw [rotation_z, rotation_z, diagonal_conjTranspose]
    congr 1
    funext b
    rw [Pi.star_apply, Complex.star_def, ← Complex.exp_conj, map_mul, Complex.conj_ofReal, Complex.conj_I]
    congr 1
    cases b <;> push_cast <;> simp <;> ring

/-- The exchange is Hermitian. -/
lemma exchange_conjTranspose : exchangeᴴ = exchange := by
  ext a b
  rw [conjTranspose_apply, exchange_apply, exchange_apply]
  cases a <;> cases b <;> simp

/-- A rotation is unitary. -/
lemma rotation_mem_unitary : axis.rotation t ∈ Matrix.unitaryGroup Bool ℂ := by
  rw [mem_unitaryGroup_iff, star_eq_conjTranspose, rotation_conjTranspose, ← rotation_add, add_neg_cancel, rotation_zero]

/-- The exchange is unitary. -/
lemma exchange_mem_unitary : exchange ∈ Matrix.unitaryGroup Bool ℂ := by
  rw [mem_unitaryGroup_iff, star_eq_conjTranspose, exchange_conjTranspose, exchange_mul_exchange]

end Rotations

section Inverse

variable {n : ℕ}

namespace ElementaryGate

/-- What a gate does to its target does not depend on the target. -/
lemma ignores_block {g : ElementaryGate ℝ} (hg : g.Fits n) : Ignores g.target g.block := by
  intro b i
  cases g with
  | unitary => rfl
  | rotation => rfl
  | entangler control wire =>
    have hne : control ≠ (entangler control wire : ElementaryGate ℝ).target := hg.2.2
    simp only [block, testBit_setWire]
    rw [if_neg hne]

/-- A gate that fits changes a wire of the register. -/
lemma target_lt {g : ElementaryGate ℝ} (hg : g.Fits n) : g.target < n := by
  cases g with
  | unitary => exact hg
  | rotation => exact hg
  | entangler => exact hg.2.1

/-- A gate stays within its wires on a wider register. -/
lemma Fits.mono {g : ElementaryGate ℝ} {m : ℕ} (hg : g.Fits m) (hm : m ≤ n) : g.Fits n := by
  cases g with
  | unitary => exact Nat.lt_of_lt_of_le hg hm
  | rotation => exact Nat.lt_of_lt_of_le hg hm
  | entangler => exact ⟨Nat.lt_of_lt_of_le hg.1 hm, Nat.lt_of_lt_of_le hg.2.1 hm, hg.2.2⟩

/-- The inverse of a gate fits where the gate does. -/
lemma fits_inverse {g : ElementaryGate ℝ} (hg : g.Fits n) : g.inverse.Fits n := by
  cases g <;> exact hg

/-- The inverse of a gate has the adjoint operator. -/
lemma operator_inverse {g : ElementaryGate ℝ} (hg : g.Fits n) : g.inverse.operator n = (g.operator n)ᴴ := by
  rw [operator, operator, wireOperator_conjTranspose _ (ignores_block hg)]
  cases g with
  | unitary wire u => exact wireOperator_congr fun i _ => Matrix2.toMatrix_dagger u
  | rotation wire axis t => exact wireOperator_congr fun i _ => (rotation_conjTranspose axis t).symm
  | entangler control wire =>
    refine wireOperator_congr fun i _ => ?_
    simp only [inverse, block]
    split
    · exact exchange_conjTranspose.symm
    · exact conjTranspose_one.symm

/-- What a unitary gate does to its target is unitary. -/
lemma block_mem_unitary {g : ElementaryGate ℝ} (hg : g.IsUnitary) (i : ℕ) :
    g.block i ∈ Matrix.unitaryGroup Bool ℂ := by
  cases g with
  | unitary => exact hg
  | rotation => exact rotation_mem_unitary _ _
  | entangler control target =>
    rw [block]
    split
    · exact exchange_mem_unitary
    · exact one_mem _

/-- A unitary gate that fits is a unitary operator. -/
lemma operator_mem_unitary {g : ElementaryGate ℝ} (hg : g.Fits n) (hu : g.IsUnitary) :
    g.operator n ∈ Matrix.unitaryGroup (Fin (2 ^ n)) ℂ := by
  have hone (i : ℕ) : (g.block i)ᴴ * g.block i = 1 := mem_unitaryGroup_iff'.1 (block_mem_unitary hu i)
  rw [mem_unitaryGroup_iff', star_eq_conjTranspose, operator, wireOperator_conjTranspose _ (ignores_block hg),
    wireOperator_mul (target_lt hg) _ _ (ignores_block hg)]
  simp only [hone, wireOperator_one]

end ElementaryGate

/-- The inverted gates in reverse order have the adjoint operator. -/
theorem gatesOperator_inverse {gates : List (ElementaryGate ℝ)} (h : ∀ g ∈ gates, g.Fits n) :
    gatesOperator n (gates.reverse.map ElementaryGate.inverse) = (gatesOperator n gates)ᴴ := by
  induction gates with
  | nil => rw [List.reverse_nil, List.map_nil, gatesOperator_nil, conjTranspose_one]
  | cons g gates ih =>
    rw [List.forall_mem_cons] at h
    rw [List.reverse_cons, List.map_append, gatesOperator_append, ih h.2, gatesOperator_cons, conjTranspose_mul,
      List.map_singleton, gatesOperator_cons, gatesOperator_nil, Matrix.one_mul, ElementaryGate.operator_inverse h.1]

/-- Unitary gates that fit make up a unitary operator, by induction over the list. -/
theorem gatesOperator_mem_unitary {gates : List (ElementaryGate ℝ)} (h : ∀ g ∈ gates, g.Fits n)
    (hu : ∀ g ∈ gates, g.IsUnitary) : gatesOperator n gates ∈ Matrix.unitaryGroup (Fin (2 ^ n)) ℂ := by
  induction gates with
  | nil => exact one_mem _
  | cons g gates ih =>
    rw [List.forall_mem_cons] at h hu
    exact mul_mem (ih h.2 hu.2) (ElementaryGate.operator_mem_unitary h.1 hu.1)

end Inverse

end CircuitSynthesis
