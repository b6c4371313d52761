import Mathlib
import CircuitSynthesis.TwoQubit.Decomposition
import CircuitSynthesis.Proofs.TwoQubit.LocalFactors

/-!
# Quarter turns of an interaction

In the magic basis the interaction is diagonal, so that it is enough to look at one sign at a time. A quarter turn about an
axis multiplies by `i` times the sign, hence whole quarter turns are a phase and, where their number is odd, the Pauli
product of the axis. `toMatrix_assemble` says that moving them into the outer factors and the phase changes nothing, and
`abs_withoutTurns_le` that at most an eighth of a turn remains of every coefficient.
-/

namespace CircuitSynthesis.TwoQubit

open Matrix
open Complex (I exp)

section Rounding

/-- An integer counts as odd exactly if it is. -/
lemma isOdd_intCast (k : ℤ) : isOdd (k : ℝ) = true ↔ Odd k := by
  have hfloor : ⌊(k : ℝ) / 2⌋ = k / 2 := by
    have h := Int.floor_div_natCast (k : ℝ) 2
    rwa [Int.floor_intCast] at h
  rw [isOdd, Scalar.two_real, Scalar.floor_real, hfloor, Scalar.beq_real, decide_eq_true_eq, Int.odd_iff, Int.emod_def]
  norm_cast

/-- The quarter turns of an angle are a whole number of them, and at most an eighth of a turn remains. -/
lemma exists_quarterTurns_eq (x : ℝ) :
    ∃ k : ℤ, quarterTurns x = k ∧ x = withoutTurns x + k * (Real.pi / 2) ∧ |withoutTurns x| ≤ Real.pi / 4 := by
  obtain ⟨k, hk, hnear⟩ := Scalar.exists_round_div_eq Real.pi_div_two_pos x
  have hturns : quarterTurns x = k := by
    rw [quarterTurns, Scalar.quarterTurn_real, hk]
  have hrest : withoutTurns x = x - k * (Real.pi / 2) := by
    rw [withoutTurns, hturns, Scalar.quarterTurn_real]
  have hhalf : Real.pi / 2 / 2 = Real.pi / 4 := by ring
  rw [hrest, ← hhalf]
  exact ⟨k, hturns, (sub_add_cancel _ _).symm, hnear⟩

/-- At most an eighth of a turn remains of an angle. -/
lemma abs_withoutTurns_le (x : ℝ) : |withoutTurns x| ≤ Real.pi / 4 := by
  obtain ⟨k, -, -, hle⟩ := exists_quarterTurns_eq x
  exact hle

end Rounding

section Turns

/-- What an odd number of quarter turns multiplies an eigenvalue by, besides the phase. -/
noncomputable def turnSign (x sign : ℝ) : ℝ := if isOdd (quarterTurns x) then sign else 1

/-- An angle of either sign is its phase of whole quarter turns, a sign, and what remains of the angle. -/
lemma exp_eq_turns (x : ℝ) {sign : ℝ} (hsign : sign = 1 ∨ sign = -1) :
    exp ((x * sign : ℝ) * I) = exp ((turnPhase x : ℝ) * I) * turnSign x sign * exp ((withoutTurns x * sign : ℝ) * I) := by
  obtain ⟨k, hk, hx, -⟩ := exists_quarterTurns_eq x
  have hphase : turnPhase x = k * (Real.pi / 2) := by rw [turnPhase, hk, Scalar.quarterTurn_real]
  have hturn : exp ((k * (Real.pi / 2) * sign : ℝ) * I) = exp ((turnPhase x : ℝ) * I) * turnSign x sign := by
    rw [hphase, turnSign, hk]
    rcases hsign with rfl | rfl
    · rw [ite_self, mul_one, Complex.ofReal_one, mul_one]
    · -- half a turn for every quarter turn, in the other direction
      have hhalf : exp ((k * (Real.pi / 2) * (-1) : ℝ) * I) =
          exp ((k * (Real.pi / 2) : ℝ) * I) * exp ((-k : ℤ) * (Real.pi * I)) := by
        rw [← Complex.exp_add]
        congr 1
        push_cast
        ring
      rw [hhalf, Complex.exp_int_mul, Complex.exp_pi_mul_I]
      congr 1
      split
      · next hodd => rw [((isOdd_intCast k).1 hodd).neg.neg_one_zpow, Complex.ofReal_neg, Complex.ofReal_one]
      · next heven =>
        rw [isOdd_intCast, Int.not_odd_iff_even] at heven
        rw [heven.neg.neg_one_zpow, Complex.ofReal_one]
  have hsplit : x * sign = k * (Real.pi / 2) * sign + withoutTurns x * sign := by
    linear_combination sign * hx
  rw [← hturn, ← Complex.exp_add, hsplit]
  congr 1
  push_cast
  ring

/-- The Pauli matrices that the quarter turns of an angle leave are diagonal in the magic basis. -/
lemma tensorMatrix_afterTurns {correction pauli : Matrix2 ℝ} {signs : Fin 4 → ℝ} (hpauli : HasSigns pauli signs)
    {d : Fin 4 → ℂ} (hcorrection : tensorMatrix correction.toMatrix correction.toMatrix = fromMagic (diagonal d)) (x : ℝ) :
    tensorMatrix (afterTurns correction pauli x).toMatrix (afterTurns correction pauli x).toMatrix =
      fromMagic (diagonal fun i => d i * turnSign x (signs i)) := by
  unfold afterTurns turnSign
  split
  · rw [Matrix2.toMatrix_mul, ← tensorMatrix_mul, hcorrection, hpauli.tensor, fromMagic_mul, diagonal_mul_diagonal]
  · rw [hcorrection]
    simp

/-- What three angles with signs add up to on a state of the magic basis. -/
def interactionAngle (x y z : ℝ) (i : Fin 4) : ℝ := x * signsX i + y * signsY i + z * signsZ i

/-- The exponential of a sum of angles, term by term. -/
lemma exp_interactionAngle (x y z : ℝ) (i : Fin 4) : exp (interactionAngle x y z i * I) =
    exp ((x * signsX i : ℝ) * I) * exp ((y * signsY i : ℝ) * I) * exp ((z * signsZ i : ℝ) * I) := by
  rw [interactionAngle, Complex.exp_ofReal_add_mul_I, Complex.exp_ofReal_add_mul_I]

/-- The operator `exp(i(x·XX + y·YY + z·ZZ))`. -/
noncomputable def interaction (x y z : ℝ) : Matrix (Fin 4) (Fin 4) ℂ :=
  fromMagic (diagonal fun i => exp (interactionAngle x y z i * I))

/-- The Pauli matrices that the quarter turns of three angles leave on each wire. -/
noncomputable def turnCorrection (x y z : ℝ) : Matrix2 ℝ :=
  afterTurns (afterTurns (afterTurns .identity .pauliX x) .pauliY y) .pauliZ z

/-- An interaction is the interaction without its quarter turns, the Pauli matrices and the phase that they leave. -/
lemma interaction_eq_turns (x y z : ℝ) : interaction x y z =
    exp ((turnPhase x + turnPhase y + turnPhase z : ℝ) * I) •
      (tensorMatrix (turnCorrection x y z).toMatrix (turnCorrection x y z).toMatrix *
        interaction (withoutTurns x) (withoutTurns y) (withoutTurns z)) := by
  have hidentity : tensorMatrix (Matrix2.identity : Matrix2 ℝ).toMatrix (Matrix2.identity : Matrix2 ℝ).toMatrix =
      fromMagic (diagonal fun _ => 1) := by
    rw [Matrix2.toMatrix_identity, tensorMatrix_one, diagonal_one, fromMagic_one]
  have hcorrection := tensorMatrix_afterTurns hasSigns_pauliZ
    (tensorMatrix_afterTurns hasSigns_pauliY (tensorMatrix_afterTurns hasSigns_pauliX hidentity x) y) z
  have hentry (i : Fin 4) : exp (interactionAngle x y z i * I) = exp ((turnPhase x + turnPhase y + turnPhase z : ℝ) * I) *
      (1 * turnSign x (signsX i) * turnSign y (signsY i) * turnSign z (signsZ i) *
        exp (interactionAngle (withoutTurns x) (withoutTurns y) (withoutTurns z) i * I)) := by
    have hx := exp_eq_turns x (hasSigns_pauliX.sign i)
    have hy := exp_eq_turns y (hasSigns_pauliY.sign i)
    have hz := exp_eq_turns z (hasSigns_pauliZ.sign i)
    have hphase : exp ((turnPhase x + turnPhase y + turnPhase z : ℝ) * I) =
        exp ((turnPhase x : ℝ) * I) * exp ((turnPhase y : ℝ) * I) * exp ((turnPhase z : ℝ) * I) := by
      rw [Complex.exp_ofReal_add_mul_I, Complex.exp_ofReal_add_mul_I]
    rw [exp_interactionAngle, exp_interactionAngle, hphase, hx, hy, hz]
    ring
  rw [turnCorrection, hcorrection, interaction, interaction, fromMagic_mul, diagonal_mul_diagonal, ← fromMagic_smul,
    ← diagonal_smul]
  congr 2
  funext i
  exact hentry i

end Turns

namespace Decomposition

/-- The operator of a decomposition whose wires are not exchanged and whose factors have no phase. -/
lemma toMatrix_matrix {d : Decomposition ℝ} {K₁ K₂ : Matrix (Fin 4) (Fin 4) ℂ} (houter : d.outer.matrix.toMatrix = K₁)
    (hinner : d.inner.matrix.toMatrix = K₂) :
    d.matrix.toMatrix = exp (d.phase * I) • (K₁ * interaction d.a d.b d.c * K₂) := by
  have hangle (i : Fin 4) : (#v[d.a - d.b + d.c, -d.a + d.b + d.c, d.a + d.b - d.c, -d.a - d.b - d.c] : Vector ℝ 4).get i =
      interactionAngle d.a d.b d.c i := by
    rw [interactionAngle]
    fin_cases i <;> simp [signsX, signsY, signsZ, Vector.get] <;> ring
  rw [matrix, Dense.toMatrix_scale, Dense.toMatrix_dot, Dense.toMatrix_dot, Dense.toMatrix_dot, Dense.toMatrix_dot,
    Dense.toMatrix_dagger, Dense.toMatrix_ofDiagonal, houter, hinner, Amplitude.toComplex_phase]
  simp only [Amplitude.toComplex_phase, hangle]
  rfl

/-- Putting factors together gives the operator that they are factors of. -/
lemma toMatrix_assemble {outer inner : LocalFactors ℝ} {K₁ K₂ : Matrix (Fin 4) (Fin 4) ℂ} (houter : outer.Factorizes K₁)
    (hinner : inner.Factorizes K₂) (x y z phase : ℝ) :
    (assemble outer inner x y z phase).matrix.toMatrix = exp (phase * I) • (K₁ * interaction x y z * K₂) := by
  let correction := turnCorrection x y z
  let d := assemble outer inner x y z phase
  have hcorrected : d.outer.matrix.toMatrix = K₁ * tensorMatrix correction.toMatrix correction.toMatrix := by
    have hleft : d.outer.left.toMatrix = outer.left.toMatrix * correction.toMatrix := Matrix2.toMatrix_mul _ _
    have hright : d.outer.right.toMatrix = outer.right.toMatrix * correction.toMatrix := Matrix2.toMatrix_mul _ _
    have hphase : d.outer.phase = 0 := houter.phase
    have hswapped : d.outer.swapped = false := houter.swapped
    rw [LocalFactors.toMatrix_matrix hphase hswapped, hleft, hright, ← tensorMatrix_mul, houter.product]
  have hphase : exp (d.phase * I) =
      exp (phase * I) * exp ((turnPhase x + turnPhase y + turnPhase z : ℝ) * I) := by
    have hsum : d.phase = phase + turnPhase x + turnPhase y + turnPhase z := rfl
    rw [hsum, ← Complex.exp_ofReal_add_mul_I, add_assoc, add_assoc, add_assoc]
  rw [toMatrix_matrix hcorrected hinner.toMatrix_matrix, hphase, interaction_eq_turns x y z, mul_smul]
  congr 1
  rw [Matrix.mul_smul, Matrix.smul_mul, ← Matrix.mul_assoc]
  rfl

end Decomposition

end CircuitSynthesis.TwoQubit
