import Mathlib
import CircuitSynthesis.Proofs.Register.Operator

/-!
# The inverse of a program

`Program.inverse` turns the gates around, one by one and as a list, and negates the phase. `inverse_operator` says that
this is the adjoint of the operator, whatever the matrices on the wires are, that inverting twice gives the program
back, and that a program of unitary gates followed by its inverse does nothing at all, the global phase included.
-/

namespace CircuitSynthesis

open Matrix

section Involution

/-- Taking the adjoint twice changes nothing. -/
@[simp] lemma Matrix2.dagger_dagger (u : Matrix2 ℝ) : u.dagger.dagger = u := by
  apply Matrix2.toMatrix_injective
  rw [Matrix2.toMatrix_dagger, Matrix2.toMatrix_dagger, conjTranspose_conjTranspose]

/-- Undoing the inverse of a gate is the gate again. -/
@[simp] lemma ElementaryGate.inverse_inverse (g : ElementaryGate ℝ) : g.inverse.inverse = g := by
  cases g with
  | unitary wire u => rw [inverse, inverse, Matrix2.dagger_dagger]
  | rotation wire axis t => rw [inverse, inverse, neg_neg]
  | entangler control target => rfl

end Involution

namespace Program

/-- Whether every gate of a program lies within its wires and controls another wire than its target. -/
def Fits (p : Program ℝ) : Prop := ∀ g ∈ p.gates, g.Fits p.width

/-- The program that does what `p` does and then what `q` does. -/
noncomputable def followedBy (p q : Program ℝ) : Program ℝ :=
  { p with gates := p.gates ++ q.gates, phase := p.phase + q.phase }

variable {p : Program ℝ}

/-- Undoing the inverse of a program is the program again. -/
lemma inverse_inverse (p : Program ℝ) : p.inverse.inverse = p := by
  have hgates : (p.gates.reverse.map ElementaryGate.inverse).reverse.map ElementaryGate.inverse = p.gates := by
    rw [← List.map_reverse, List.reverse_reverse, List.map_map]
    exact List.map_id'' ElementaryGate.inverse_inverse p.gates
  simp only [inverse, hgates, neg_neg]

/-- The inverse of a program has the adjoint operator, its phase included. -/
lemma operator_inverse (hp : p.Fits) : p.inverse.operator = p.operatorᴴ := by
  rw [operator_eq_phasedOperator, operator_eq_phasedOperator, phasedOperator_mk, phasedOperator_mk, conjTranspose_smul,
    Complex.star_exp_mul_I, ← gatesOperator_inverse hp]
  rfl

/-- Unitary gates that are undone do nothing. -/
lemma operator_followedBy_inverse (hp : p.Fits) (hu : ∀ g ∈ p.gates, g.IsUnitary) :
    (p.followedBy p.inverse).operator = 1 := by
  have hgates : gatesOperator p.width (p.gates ++ p.inverse.gates) = 1 := by
    rw [gatesOperator_append, inverse, gatesOperator_inverse hp, ← star_eq_conjTranspose,
      mem_unitaryGroup_iff'.1 (gatesOperator_mem_unitary hp hu)]
  have hphase : p.phase + p.inverse.phase = 0 := add_neg_cancel p.phase
  rw [operator_eq_phasedOperator, phasedOperator_mk, followedBy, hgates, hphase, Complex.ofReal_zero, zero_mul,
    Complex.exp_zero, one_smul]

/-- The inverse of a program has the adjoint operator, the inverse of the inverse is the program, and a program of
unitary gates followed by its inverse is the identity with global phase zero. -/
theorem inverse_operator (hp : p.Fits) :
    p.inverse.operator = p.operatorᴴ ∧ p.inverse.inverse = p ∧
      ((∀ g ∈ p.gates, g.IsUnitary) →
        (p.followedBy p.inverse).operator = 1 ∧ (p.followedBy p.inverse).phase = 0) :=
  ⟨operator_inverse hp, inverse_inverse p, fun hu =>
    ⟨operator_followedBy_inverse hp hu, add_neg_cancel p.phase⟩⟩

section Example

/-- A Hadamard matrix, a rotation and a controlled-NOT. -/
noncomputable def rotatedPair : Program ℝ :=
  ⟨2, [.unitary 0 .hadamard, .rotation 1 .y 1, .entangler 0 1], 1, .general⟩

/-- The gates of the example act on its two wires. -/
lemma rotatedPair_fits : rotatedPair.Fits := by
  simp [Fits, rotatedPair, ElementaryGate.Fits]

/-- The gates of the example are unitary. -/
lemma rotatedPair_isUnitary : ∀ g ∈ rotatedPair.gates, g.IsUnitary := by
  simp [rotatedPair, ElementaryGate.IsUnitary, Matrix2.hadamard_mem_unitary]

/-- A matrix, a rotation and a controlled-NOT are undone in the reverse order. -/
theorem inverse_operator_rotatedPair :
    rotatedPair.inverse.operator = rotatedPair.operatorᴴ ∧ (rotatedPair.followedBy rotatedPair.inverse).operator = 1 :=
  have h := inverse_operator rotatedPair_fits
  ⟨h.1, (h.2.2 rotatedPair_isUnitary).1⟩

end Example

end Program

end CircuitSynthesis
