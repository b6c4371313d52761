import Mathlib
import CircuitSynthesis.Proofs.TwoQubit.Fusion
import CircuitSynthesis.Proofs.TwoQubit.QuarterTurns

/-!
# The gates of a decomposition

Each of the three terms of an interaction is the exponential of a Pauli product, a combination of the identity and this
product. The block of two controlled-NOTs around a rotation is the exponential of `ZZ`, and a change of basis on both
wires turns it into the other two. Together with the local factors the blocks are the operator of the decomposition;
fusing the matrices changes neither this nor the number of controlled-NOTs and rotations (`Decomposition.gates_spec`).
-/

namespace CircuitSynthesis.TwoQubit

open Matrix
open Complex (I exp)

/-- The operator of a list of gates on two wires. -/
noncomputable def pairOperator (gates : List (ElementaryGate ℝ)) : Matrix (Fin 4) (Fin 4) ℂ := gatesOperator 2 gates

/-- The exponential `exp(i·t·PP)` of a Pauli matrix on both wires. -/
noncomputable def pauliExp (P : Matrix Bool Bool ℂ) (t : ℝ) : Matrix (Fin 4) (Fin 4) ℂ :=
  (Real.cos t : ℂ) • 1 + (Real.sin t * I) • tensorMatrix P P

section PauliExp

/-- The exponential of zero is the identity. -/
lemma pauliExp_zero (P : Matrix Bool Bool ℂ) : pauliExp P 0 = 1 := by
  rw [pauliExp, Real.cos_zero, Real.sin_zero, Complex.ofReal_zero, zero_mul, zero_smul, Complex.ofReal_one, one_smul,
    add_zero]

/-- A change of basis on both wires. -/
lemma tensorMatrix_mul_pauliExp {P Q V W : Matrix Bool Bool ℂ} (hinv : V * W = 1) (hQ : V * P * W = Q) (t : ℝ) :
    tensorMatrix V V * pauliExp P t * tensorMatrix W W = pauliExp Q t := by
  rw [pauliExp, pauliExp, Matrix.mul_add, Matrix.add_mul, Matrix.mul_smul, Matrix.mul_smul, Matrix.smul_mul, Matrix.smul_mul,
    Matrix.mul_one, tensorMatrix_mul, tensorMatrix_mul, tensorMatrix_mul, hinv, hQ, tensorMatrix_one]

/-- In the magic basis the exponential is diagonal. -/
lemma pauliExp_eq_fromMagic {pauli : Matrix2 ℝ} {signs : Fin 4 → ℝ} (h : HasSigns pauli signs) (t : ℝ) :
    pauliExp pauli.toMatrix t = fromMagic (diagonal fun i => exp ((t * signs i : ℝ) * I)) := by
  have hentry (i : Fin 4) : exp ((t * signs i : ℝ) * I) = Real.cos t + Real.sin t * I * signs i := by
    rcases h.sign i with hi | hi
    · rw [hi, mul_one, Complex.exp_mul_I, Complex.ofReal_one, mul_one, Complex.ofReal_cos, Complex.ofReal_sin]
    · rw [hi, mul_neg_one, Complex.exp_mul_I, Complex.ofReal_neg, Complex.cos_neg, Complex.sin_neg, Complex.ofReal_neg,
        Complex.ofReal_one, Complex.ofReal_cos, Complex.ofReal_sin]
      ring
  have hdiagonal : (diagonal fun i => exp ((t * signs i : ℝ) * I) : Matrix (Fin 4) (Fin 4) ℂ) =
      (Real.cos t : ℂ) • 1 + (Real.sin t * I) • diagonal fun i => (signs i : ℂ) := by
    simp only [hentry]
    ext i j
    by_cases hij : i = j
    · simp [hij]
    · simp [hij]
  rw [pauliExp, h.tensor, hdiagonal, fromMagic_add, fromMagic_smul, fromMagic_smul, fromMagic_one]

/-- The interaction is the product of its three terms. -/
lemma interaction_eq_mul (x y z : ℝ) : interaction x y z =
    pauliExp (Matrix2.pauliY : Matrix2 ℝ).toMatrix y * pauliExp (Matrix2.pauliX : Matrix2 ℝ).toMatrix x *
      pauliExp (Matrix2.pauliZ : Matrix2 ℝ).toMatrix z := by
  rw [pauliExp_eq_fromMagic hasSigns_pauliX, pauliExp_eq_fromMagic hasSigns_pauliY, pauliExp_eq_fromMagic hasSigns_pauliZ,
    fromMagic_mul, fromMagic_mul, diagonal_mul_diagonal, diagonal_mul_diagonal, interaction]
  congr 2
  funext i
  rw [exp_interactionAngle]
  ring

end PauliExp

section Wires

/-- The second bit of a pair of wires is the value of the upper wire. -/
lemma testBit_one_pairIndex (a b : Bool) : (pairIndex (a, b)).val.testBit 1 = a := by
  cases a <;> cases b <;> rfl

/-- The first bit of a pair of wires is the value of the lower wire. -/
lemma testBit_zero_pairIndex (a b : Bool) : (pairIndex (a, b)).val.testBit 0 = b := by
  cases a <;> cases b <;> rfl

/-- Replacing the upper wire of a pair. -/
lemma setWire_one_pairIndex (a b c : Bool) : setWire 1 c (pairIndex (a, b)) = pairIndex (c, b) := by
  cases a <;> cases b <;> cases c <;> rfl

/-- Replacing the lower wire of a pair. -/
lemma setWire_zero_pairIndex (a b c : Bool) : setWire 0 c (pairIndex (a, b)) = pairIndex (a, c) := by
  cases a <;> cases b <;> cases c <;> rfl

/-- An operator on wire one, entry by entry. -/
lemma wireOperator_one_apply (M : ℕ → Matrix Bool Bool ℂ) (a b c d : Bool) :
    wireOperator 2 1 M (pairIndex (a, b)) (pairIndex (c, d)) = if b = d then M (pairIndex (a, b)) a c else 0 := by
  rw [wireOperator_apply]
  simp only [setWire_one_pairIndex, testBit_one_pairIndex, Fin.val_inj, pairIndex.apply_eq_iff_eq, Prod.mk.injEq, true_and]

/-- An operator on the lower wire compares the upper one. -/
lemma wireOperator_zero_apply (M : ℕ → Matrix Bool Bool ℂ) (a b c d : Bool) :
    wireOperator 2 0 M (pairIndex (a, b)) (pairIndex (c, d)) = if a = c then M (pairIndex (a, b)) b d else 0 := by
  rw [wireOperator_apply]
  simp only [setWire_zero_pairIndex, testBit_zero_pairIndex, Fin.val_inj, pairIndex.apply_eq_iff_eq, Prod.mk.injEq, and_true]

end Wires

/-- Whether both factors are unitary. -/
structure LocalFactors.IsUnitary (f : LocalFactors ℝ) : Prop where
  left : f.left.toMatrix ∈ unitaryGroup Bool ℂ
  right : f.right.toMatrix ∈ unitaryGroup Bool ℂ

namespace Decomposition

section Blocks

variable (u v : Matrix2 ℝ) (t : ℝ)

/-- Of two lists of gates the one that acts first stands on the right. -/
lemma pairOperator_append (gates gates' : List (ElementaryGate ℝ)) :
    pairOperator (gates ++ gates') = pairOperator gates' * pairOperator gates := gatesOperator_append gates gates'

/-- A matrix on each wire. -/
lemma pairOperator_local : pairOperator [.unitary 1 u, .unitary 0 v] = tensorMatrix u.toMatrix v.toMatrix := by
  have hone : (wireOperator 2 1 fun _ => u.toMatrix) = tensorMatrix u.toMatrix 1 := by
    refine ext_pairs fun a b c d => ?_
    rw [wireOperator_one_apply, tensorMatrix_apply, one_apply, mul_ite, mul_one, mul_zero]
  have hzero : (wireOperator 2 0 fun _ => v.toMatrix) = tensorMatrix 1 v.toMatrix := by
    refine ext_pairs fun a b c d => ?_
    rw [wireOperator_zero_apply, tensorMatrix_apply, one_apply, ite_mul, one_mul, zero_mul]
  have hlist : pairOperator [.unitary 1 u, .unitary 0 v] = tensorMatrix 1 v.toMatrix * tensorMatrix u.toMatrix 1 := by
    rw [← hone, ← hzero, pairOperator, gatesOperator_cons, gatesOperator_singleton]
    rfl
  rw [hlist, tensorMatrix_mul, Matrix.one_mul, Matrix.mul_one]

/-- A matrix on both wires is its tensor product with itself. -/
lemma pairOperator_onBoth : pairOperator (onBoth u) = tensorMatrix u.toMatrix u.toMatrix := pairOperator_local u u

/-- The entries of the third Pauli matrix. -/
lemma pauliZ_apply (a b : Bool) :
    (Matrix2.pauliZ : Matrix2 ℝ).toMatrix a b = if a = b then (if a then -1 else 1) else 0 := by
  cases a <;> cases b <;> simp [Matrix2.toMatrix, Matrix2.pauliZ, Matrix2.ofReals]

/-- Between the controlled-NOTs the rotation turns one way or the other. -/
lemma pairOperator_zzBlock : pairOperator (zzBlock t) = pauliExp (Matrix2.pauliZ : Matrix2 ℝ).toMatrix t := by
  have hfits : (ElementaryGate.entangler 0 1 : ElementaryGate ℝ).Fits 2 := ⟨by decide, by decide, by decide⟩
  let B := (ElementaryGate.entangler 0 1 : ElementaryGate ℝ).block
  have hB : Ignores 1 B := ElementaryGate.ignores_block hfits
  -- one operator on wire one, which depends on the value of wire zero
  have hlist : pairOperator (zzBlock t) = wireOperator 2 1 fun i => B i * Axis.z.rotation (-2 * t) * B i := by
    rw [← wireOperator_mul (by decide) _ _ hB, ← wireOperator_mul (by decide) _ _ fun _ _ => rfl, pairOperator, zzBlock,
      gatesOperator_cons, gatesOperator_cons, gatesOperator_singleton, Scalar.two_real]
    rfl
  have hblock (i : ℕ) : B i * Axis.z.rotation (-2 * t) * B i = Axis.z.rotation (if i.testBit 0 then 2 * t else -2 * t) := by
    change (if i.testBit 0 then exchange else 1) * _ * (if i.testBit 0 then exchange else 1) = _
    split
    · rw [Matrix.mul_assoc, rotation_mul_exchange, ← Matrix.mul_assoc, exchange_mul_exchange, Matrix.one_mul]
      congr 1
      ring
    · rw [Matrix.one_mul, Matrix.mul_one]
  have hplus : exp ((2 * t / 2 : ℝ) * I) = Real.cos t + Real.sin t * I := by
    rw [mul_div_cancel_left₀ t two_ne_zero, Complex.exp_mul_I, Complex.ofReal_cos, Complex.ofReal_sin]
  have hminus : exp ((-(2 * t) / 2 : ℝ) * I) = Real.cos t - Real.sin t * I := by
    rw [neg_div, mul_div_cancel_left₀ t two_ne_zero, Complex.exp_mul_I, Complex.ofReal_neg, Complex.cos_neg,
      Complex.sin_neg, Complex.ofReal_cos, Complex.ofReal_sin]
    ring
  rw [hlist]
  simp only [hblock]
  refine ext_pairs fun a b c d => ?_
  rw [wireOperator_one_apply, testBit_zero_pairIndex, pauliExp, Matrix.add_apply, Matrix.smul_apply, Matrix.smul_apply,
    tensorMatrix_apply, one_apply, pauliZ_apply, pauliZ_apply, rotation_z, diagonal_apply]
  simp only [pairIndex.apply_eq_iff_eq, Prod.mk.injEq]
  cases a <;> cases b <;> cases c <;> cases d <;>
    simp only [reduceIte, Bool.false_eq_true, neg_mul, neg_neg, hplus, hminus] <;> simp <;> ring

/-- The block of the first term. -/
lemma pairOperator_xxBlock : pairOperator (onBoth .hadamard ++ zzBlock t ++ onBoth .hadamard) =
    pauliExp (Matrix2.pauliX : Matrix2 ℝ).toMatrix t := by
  rw [pairOperator_append, pairOperator_append, pairOperator_onBoth, pairOperator_zzBlock, ← Matrix.mul_assoc]
  exact tensorMatrix_mul_pauliExp Matrix2.hadamard_mul_hadamard Matrix2.hadamard_mul_pauliZ t

/-- The block of the second term. -/
lemma pairOperator_yyBlock :
    pairOperator (onBoth .phaseSdg ++ onBoth .hadamard ++ zzBlock t ++ onBoth .hadamard ++ onBoth .phaseS) =
      pauliExp (Matrix2.pauliY : Matrix2 ℝ).toMatrix t := by
  have hlist : onBoth .phaseSdg ++ onBoth .hadamard ++ zzBlock t ++ onBoth .hadamard ++ onBoth .phaseS =
      onBoth .phaseSdg ++ (onBoth .hadamard ++ zzBlock t ++ onBoth .hadamard) ++ onBoth (.phaseS : Matrix2 ℝ) := by
    simp only [List.append_assoc]
  rw [hlist, pairOperator_append, pairOperator_append, pairOperator_onBoth, pairOperator_onBoth, pairOperator_xxBlock,
    ← Matrix.mul_assoc]
  exact tensorMatrix_mul_pauliExp Matrix2.phaseS_mul_phaseSdg Matrix2.phaseS_mul_pauliX t

end Blocks

section Terms

variable {P : Matrix Bool Bool ℂ} {cutoff x : ℝ} {block : List (ElementaryGate ℝ)}

/-- A block that is left out is one of no effect. -/
lemma pairOperator_unlessSmall (hblock : pairOperator block = pauliExp P x) (hx : |2 * x| < cutoff → x = 0) :
    pairOperator (unlessSmall cutoff x block) = pauliExp P x := by
  rw [unlessSmall, Scalar.abs_real, Scalar.two_real]
  split
  · exact hblock
  · next hsmall =>
    rw [hx (not_le.1 hsmall), pauliExp_zero]
    rfl

/-- A block without effect is left out. -/
lemma unlessSmall_zero (hcutoff : 0 < cutoff) (block : List (ElementaryGate ℝ)) : unlessSmall cutoff 0 block = [] := by
  rw [unlessSmall, if_neg]
  simpa using hcutoff

/-- A block that may be left out has no other gates. -/
lemma mem_unlessSmall {g : ElementaryGate ℝ} (hg : g ∈ unlessSmall cutoff x block) : g ∈ block := by
  rw [unlessSmall] at hg
  split at hg
  · exact hg
  · exact absurd hg List.not_mem_nil

end Terms

section RawGates

variable {d : Decomposition ℝ} {cutoff : ℝ}

/-- Whether the terms that a cutoff leaves out of a decomposition have no effect. -/
def KeepsTerms (d : Decomposition ℝ) (cutoff : ℝ) : Prop := ∀ x ∈ [d.a, d.b, d.c], |2 * x| < cutoff → x = 0

/-- The gates before fusion are the inner factors, the interaction and the outer factors. -/
lemma pairOperator_rawGates (hcutoff : d.KeepsTerms cutoff) : pairOperator (d.rawGates cutoff) =
    tensorMatrix d.outer.left.toMatrix d.outer.right.toMatrix * interaction d.a d.b d.c *
      tensorMatrix d.inner.left.toMatrix d.inner.right.toMatrix := by
  have ha := pairOperator_unlessSmall (pairOperator_xxBlock d.a) (hcutoff d.a (by simp))
  have hb := pairOperator_unlessSmall (pairOperator_yyBlock d.b) (hcutoff d.b (by simp))
  have hc := pairOperator_unlessSmall (pairOperator_zzBlock d.c) (hcutoff d.c (by simp))
  rw [rawGates, pairOperator_append, pairOperator_append, pairOperator_append, pairOperator_append, pairOperator_local,
    pairOperator_local, ha, hb, hc, interaction_eq_mul]
  simp only [Matrix.mul_assoc]

/-- The gates of the last term fit and are unitary. -/
lemma fits_zzBlock (x : ℝ) : ∀ g ∈ zzBlock x, g.Fits 2 ∧ g.IsUnitary := by
  simp [zzBlock, ElementaryGate.Fits, ElementaryGate.IsUnitary]

/-- Unitary factors, one on each wire, fit and are unitary. -/
lemma fits_local {u v : Matrix2 ℝ} (hu : u.toMatrix ∈ unitaryGroup Bool ℂ) (hv : v.toMatrix ∈ unitaryGroup Bool ℂ) :
    ∀ g ∈ [ElementaryGate.unitary 1 u, ElementaryGate.unitary 0 v], g.Fits 2 ∧ g.IsUnitary := by
  simp [ElementaryGate.Fits, ElementaryGate.IsUnitary, hu, hv]

/-- A unitary matrix on both wires fits and is unitary. -/
lemma fits_onBoth {u : Matrix2 ℝ} (hu : u.toMatrix ∈ unitaryGroup Bool ℂ) : ∀ g ∈ onBoth u, g.Fits 2 ∧ g.IsUnitary :=
  fits_local hu hu

/-- The gates before fusion lie on the two wires, and their matrices are unitary. -/
lemma fits_rawGates (houter : d.outer.IsUnitary) (hinner : d.inner.IsUnitary) :
    ∀ g ∈ d.rawGates cutoff, g.Fits 2 ∧ g.IsUnitary := by
  have hadamard := fits_onBoth Matrix2.hadamard_mem_unitary
  have hphase := fits_onBoth Matrix2.phaseS_mem_unitary
  have hback := fits_onBoth Matrix2.phaseSdg_mem_unitary
  have hx (x : ℝ) := List.forall_mem_append.2 ⟨List.forall_mem_append.2 ⟨hadamard, fits_zzBlock x⟩, hadamard⟩
  have hy (x : ℝ) := List.forall_mem_append.2 ⟨List.forall_mem_append.2 ⟨List.forall_mem_append.2
    ⟨List.forall_mem_append.2 ⟨hback, hadamard⟩, fits_zzBlock x⟩, hadamard⟩, hphase⟩
  simp only [rawGates, List.forall_mem_append]
  refine ⟨⟨⟨⟨fits_local hinner.left hinner.right, fun g hg => ?_⟩, fun g hg => ?_⟩, fun g hg => ?_⟩,
    fits_local houter.left houter.right⟩
  · exact fits_zzBlock d.c g (mem_unlessSmall hg)
  · exact hx d.a g (mem_unlessSmall hg)
  · exact hy d.b g (mem_unlessSmall hg)

/-- The operator of a decomposition whose factors do not exchange the wires. -/
lemma toMatrix_matrix_eq_smul (houter : d.outer.swapped = false) (hinner : d.inner.swapped = false) :
    d.matrix.toMatrix = exp (d.globalPhase * I) • (tensorMatrix d.outer.left.toMatrix d.outer.right.toMatrix *
      interaction d.a d.b d.c * tensorMatrix d.inner.left.toMatrix d.inner.right.toMatrix) := by
  have hphase : exp (d.globalPhase * I) = exp (d.phase * I) * exp (d.inner.phase * I) * exp (d.outer.phase * I) := by
    rw [globalPhase, add_right_comm, Complex.exp_ofReal_add_mul_I, Complex.exp_ofReal_add_mul_I]
  rw [toMatrix_matrix (LocalFactors.toMatrix_matrix_eq_smul houter) (LocalFactors.toMatrix_matrix_eq_smul hinner), hphase]
  simp only [Matrix.smul_mul, Matrix.mul_smul, mul_smul]

end RawGates

section Count

variable {R : Type} [Scalar R]

/-- A block that may be left out has no more gates of any kind than the block. -/
lemma countP_unlessSmall_le (p : ElementaryGate R → Bool) (cutoff x : R) (block : List (ElementaryGate R)) :
    (unlessSmall cutoff x block).countP p ≤ block.countP p := by
  rw [unlessSmall]
  split
  · exact le_rfl
  · exact Nat.zero_le _

variable {d : Decomposition R} {cutoff : R} {p : ElementaryGate R → Bool}

/-- If every block has at most `k` gates of a kind that the factors and the changes of basis are not, there are at most
three times as many before fusion. -/
lemma countP_rawGates_le {k : ℕ} (hunitary : ∀ wire u, p (.unitary wire u) = false)
    (hblock : ∀ x, (zzBlock x).countP p = k) : (d.rawGates cutoff).countP p ≤ 3 * k := by
  have hlocal (u v : Matrix2 R) : [ElementaryGate.unitary 1 u, ElementaryGate.unitary 0 v].countP p = 0 := by
    simp [hunitary]
  have hboth (u : Matrix2 R) : (onBoth u).countP p = 0 := hlocal u u
  have ha := countP_unlessSmall_le p cutoff d.a (onBoth .hadamard ++ zzBlock d.a ++ onBoth .hadamard)
  have hb := countP_unlessSmall_le p cutoff d.b
    (onBoth .phaseSdg ++ onBoth .hadamard ++ zzBlock d.b ++ onBoth .hadamard ++ onBoth .phaseS)
  have hc := countP_unlessSmall_le p cutoff d.c (zzBlock d.c)
  simp only [List.countP_append, hboth, hblock] at ha hb hc
  simp only [rawGates, List.countP_append, hlocal]
  omega

end Count

section Spec

/-- The gates of a decomposition with unitary factors that do not exchange the wires, times the phase, are the operator of
the decomposition, where only terms of no effect are left out and only multiples of the identity are turned into phase.
There are at most six controlled-NOTs and three rotations. -/
theorem gates_spec {d : Decomposition ℝ} {cutoff : ℝ} (houter : d.outer.IsUnitary) (hinner : d.inner.IsUnitary)
    (houter_swapped : d.outer.swapped = false) (hinner_swapped : d.inner.swapped = false) (hcutoff : d.KeepsTerms cutoff)
    (hdropped : ∀ u ∈ fuseDropped (d.rawGates cutoff) d.globalPhase, Fusion.IsExact u) :
    phasedOperator 2 (d.gates cutoff) = d.matrix.toMatrix ∧
      (d.gates cutoff).1.countP ElementaryGate.isEntangler ≤ 6 ∧
      (d.gates cutoff).1.countP ElementaryGate.isRotation ≤ 3 := by
  have hraw (g : ElementaryGate ℝ) (hg : g ∈ d.rawGates cutoff) := fits_rawGates houter hinner g hg
  refine ⟨?_, ?_, ?_⟩
  · calc phasedOperator 2 (d.gates cutoff)
        = phasedOperator 2 (d.rawGates cutoff, d.globalPhase) :=
          phasedOperator_fuse le_rfl (fun g hg => (hraw g hg).1) (fun g hg => (hraw g hg).2) hdropped
      _ = exp (d.globalPhase * I) • pairOperator (d.rawGates cutoff) := rfl
      _ = d.matrix.toMatrix := by
          rw [pairOperator_rawGates hcutoff, toMatrix_matrix_eq_smul houter_swapped hinner_swapped]
  · have hmatrix (wire : ℕ) (u : Matrix2 ℝ) : (ElementaryGate.unitary wire u).isEntangler = false := rfl
    rw [gates, countP_fuse hmatrix]
    exact countP_rawGates_le (k := 2) hmatrix fun _ => rfl
  · have hmatrix (wire : ℕ) (u : Matrix2 ℝ) : (ElementaryGate.unitary wire u).isRotation = false := rfl
    rw [gates, countP_fuse hmatrix]
    exact countP_rawGates_le (k := 1) hmatrix fun _ => rfl

/-- The first term alone, between Hadamard matrices on both wires. -/
noncomputable def turnedFirst : Decomposition ℝ where
  outer := ⟨.hadamard, .hadamard, 0, false⟩
  inner := ⟨.hadamard, .hadamard, 1, false⟩
  a := 1
  b := 0
  c := 0
  phase := 0

/-- The gates of the example before fusion. -/
lemma turnedFirst_rawGates : turnedFirst.rawGates 1 =
    onBoth .hadamard ++ (onBoth .hadamard ++ zzBlock 1 ++ onBoth .hadamard) ++ onBoth .hadamard := by
  have hsmall (block : List (ElementaryGate ℝ)) : unlessSmall (1 : ℝ) 0 block = [] := unlessSmall_zero one_pos block
  have hlarge (block : List (ElementaryGate ℝ)) : unlessSmall (1 : ℝ) 1 block = block := by
    rw [unlessSmall, if_pos]
    simp
  simp only [rawGates, turnedFirst, hsmall, hlarge, List.append_nil]
  rfl

/-- Every pair of Hadamard matrices is dropped. -/
lemma turnedFirst_dropped : ∀ u ∈ fuseDropped (turnedFirst.rawGates 1) turnedFirst.globalPhase, Fusion.IsExact u := by
  have hsquare : Fusion.IsExact (.hadamard * .hadamard : Matrix2 ℝ) :=
    ⟨1, by rw [Matrix2.toMatrix_mul, Matrix2.hadamard_mul_hadamard, one_smul]⟩
  rw [turnedFirst_rawGates]
  simpa [fuseDropped, onBoth, zzBlock, Fusion.dropped, Fusion.droppedBy, Fusion.droppedAt, ElementaryGate.wires,
    Fusion.slot_add_of_lt, Fusion.slot_add_of_not_waits, Fusion.slot_empty, Fusion.join] using fun _ => hsquare

/-- The gates of the first term alone are its operator, the Hadamard matrices around it being fused away. -/
theorem gates_spec_turnedFirst :
    turnedFirst.KeepsTerms 1 ∧ phasedOperator 2 (turnedFirst.gates 1) = turnedFirst.matrix.toMatrix := by
  have hunitary (phase : ℝ) (swapped : Bool) : (⟨.hadamard, .hadamard, phase, swapped⟩ : LocalFactors ℝ).IsUnitary :=
    ⟨Matrix2.hadamard_mem_unitary, Matrix2.hadamard_mem_unitary⟩
  have hcutoff : turnedFirst.KeepsTerms 1 := by
    simp [KeepsTerms, turnedFirst]
  exact ⟨hcutoff, (gates_spec (hunitary 0 false) (hunitary 1 false) rfl rfl hcutoff turnedFirst_dropped).1⟩

end Spec

end Decomposition

end CircuitSynthesis.TwoQubit
