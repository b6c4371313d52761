import Mathlib
import CircuitSynthesis.Proofs.Euler
import CircuitSynthesis.Proofs.Inverse

/-!
# Lowering to rotations

`Program.lower` writes every matrix as rotations. Phases come from four places: the program, a matrix that is a phase
alone, the determinant of any other matrix, and the full turns by which an angle is brought near zero, each of which is
a sign. `phasedOperator_lowerGate` accounts for them gate by gate, and `lower_spec` for the whole program: its operator
is unchanged, global phase included, each matrix becomes a block of at most three rotations on its wire by at most half
a turn, every other gate stays where it is, and there is nothing left to lower.
-/

namespace CircuitSynthesis

open Matrix
open Complex (I exp)

section Turns

/-- Full turns are signs. -/
lemma rotation_turns (axis : Axis) (k : ℤ) : axis.rotation (k * (2 * Real.pi)) = exp ((k * Real.pi : ℝ) * I) • 1 := by
  have hhalf : (k : ℝ) * (2 * Real.pi) / 2 = k * Real.pi := by ring
  have hhalf' : -((k : ℝ) * (2 * Real.pi)) / 2 = -(k * Real.pi) := by ring
  have hsign : exp ((k * Real.pi : ℝ) * I) = (Real.cos (k * Real.pi) : ℝ) := by
    rw [Complex.exp_mul_I, ← Complex.ofReal_cos, ← Complex.ofReal_sin, Real.sin_int_mul_pi, Complex.ofReal_zero, zero_mul,
      add_zero]
  cases axis with
  | y =>
    ext i j
    rw [Matrix.smul_apply, hsign, rotation_y_apply, hhalf, Real.sin_int_mul_pi]
    cases i <;> cases j <;> simp
  | z =>
    have hsign' : exp ((-(k * Real.pi) : ℝ) * I) = exp ((k * Real.pi : ℝ) * I) := by
      rw [← Complex.star_exp_mul_I, hsign, Complex.star_def, Complex.conj_ofReal]
    rw [rotation_z, hhalf, hhalf', smul_one_eq_diagonal]
    congr 1
    funext b
    cases b
    · exact hsign'
    · rfl

/-- Wrapping an angle removes full turns, and at most half a turn remains. -/
lemma wrapAngle_spec (angle : ℝ) : ∃ k : ℤ, (wrapAngle angle).2 = k ∧
    angle = (wrapAngle angle).1 + k * (2 * Real.pi) ∧ |(wrapAngle angle).1| ≤ Real.pi := by
  obtain ⟨k, hk, hnear⟩ := Scalar.exists_round_div_eq Real.two_pi_pos angle
  have hwrap : wrapAngle angle = (angle - k * (2 * Real.pi), (k : ℝ)) := by
    rw [wrapAngle, Scalar.tau_real, hk]
  rw [mul_div_cancel_left₀ _ two_ne_zero] at hnear
  rw [hwrap]
  exact ⟨k, rfl, (sub_add_cancel _ _).symm, hnear⟩

end Turns

namespace ElementaryGate

/-- Whether a gate is given by a matrix. -/
def IsMatrix : ElementaryGate ℝ → Prop
  | unitary _ _ => True
  | _ => False

/-- Whether the tolerance is only ever met by zero where the gate is lowered. -/
def JudgedExactly : ElementaryGate ℝ → Prop
  | unitary _ u => u.JudgedExactly
  | _ => True

/-- Whether a gate is a rotation of a wire by at most half a turn. -/
def IsShortRotation (wire : ℕ) (g : ElementaryGate ℝ) : Prop :=
  ∃ axis angle, g = rotation wire axis angle ∧ |angle| ≤ Real.pi

/-- Whether a block of gates may stand for a gate: for a matrix at most three short rotations of its wire, for any other
gate the gate itself. -/
def LowersTo : ElementaryGate ℝ → List (ElementaryGate ℝ) → Prop
  | unitary wire _, block => block.length ≤ 3 ∧ ∀ g ∈ block, g.IsShortRotation wire
  | g, block => block = [g]

/-- A rotation is not given by a matrix. -/
lemma IsShortRotation.not_isMatrix {wire : ℕ} {g : ElementaryGate ℝ} (h : g.IsShortRotation wire) : ¬g.IsMatrix := by
  obtain ⟨axis, angle, rfl, -⟩ := h
  exact id

/-- There is no matrix in the block. -/
lemma LowersTo.not_isMatrix {g : ElementaryGate ℝ} {block : List (ElementaryGate ℝ)} (h : g.LowersTo block) :
    ∀ g' ∈ block, ¬g'.IsMatrix := by
  cases g with
  | unitary wire u => exact fun g' hg' => (h.2 g' hg').not_isMatrix
  | rotation wire axis angle =>
    obtain rfl : block = [rotation wire axis angle] := h
    exact List.forall_mem_singleton.2 id
  | entangler control target =>
    obtain rfl : block = [entangler control target] := h
    exact List.forall_mem_singleton.2 id

end ElementaryGate

namespace Program

variable {n : ℕ}

section WrappedRotation

variable (wire : ℕ) (axis : Axis) (angle : ℝ)

/-- The rotation by the wrapped angle, unless it is zero, and half a turn of phase for each turn taken off. -/
lemma wrappedRotation_eq : wrappedRotation wire axis angle =
    (if 0 < |(wrapAngle angle).1| then [.rotation wire axis (wrapAngle angle).1] else [], (wrapAngle angle).2 * Real.pi) :=
  rfl

/-- A wrapped rotation and the phase owed for it are the rotation. -/
lemma phasedOperator_wrappedRotation :
    phasedOperator n (wrappedRotation wire axis angle) = wireOperator n wire fun _ => axis.rotation angle := by
  obtain ⟨k, hk, hangle, -⟩ := wrapAngle_spec angle
  have hrest : gatesOperator n (wrappedRotation wire axis angle).1 =
      wireOperator n wire fun _ => axis.rotation (wrapAngle angle).1 := by
    rw [wrappedRotation_eq]
    dsimp only
    split
    · exact gatesOperator_singleton _
    · next hzero =>
      rw [not_lt, abs_nonpos_iff] at hzero
      rw [hzero, rotation_zero, gatesOperator_nil, wireOperator_one]
  have hsplit : axis.rotation angle = exp ((k * Real.pi : ℝ) * I) • axis.rotation (wrapAngle angle).1 := by
    conv_lhs => rw [hangle, rotation_add, rotation_turns, Matrix.mul_smul, Matrix.mul_one]
  rw [phasedOperator, hrest, hsplit, wireOperator_smul, wrappedRotation_eq, hk]

/-- A wrapped rotation is a short one of its wire. -/
lemma isShortRotation_of_mem_wrappedRotation {g : ElementaryGate ℝ} (hg : g ∈ (wrappedRotation wire axis angle).1) :
    g.IsShortRotation wire := by
  obtain ⟨-, -, -, hle⟩ := wrapAngle_spec angle
  rw [wrappedRotation_eq] at hg
  dsimp only at hg
  split at hg
  · exact ⟨axis, _, List.mem_singleton.1 hg, hle⟩
  · exact absurd hg List.not_mem_nil

/-- Wrapping leaves at most one rotation. -/
lemma length_wrappedRotation_le : (wrappedRotation wire axis angle).1.length ≤ 1 := by
  rw [wrappedRotation_eq]
  dsimp only
  split
  · exact le_rfl
  · exact Nat.zero_le 1

end WrappedRotation

section Gates

variable {phase : ℝ} {g : ElementaryGate ℝ} {gates : List (ElementaryGate ℝ)}

/-- A gate that is not given by a matrix is left alone, and so is the phase. -/
lemma lowerGate_of_not_isMatrix (hg : ¬g.IsMatrix) : lowerGate phase g = ([g], phase) := by
  cases g with
  | unitary => exact absurd trivial hg
  | rotation => rfl
  | entangler => rfl

/-- A multiple of the identity is lowered to its phase. -/
lemma toMatrix_of_isScalar {u : Matrix2 ℝ} (hu : u.toMatrix ∈ unitaryGroup Bool ℂ) (hexact : u.JudgedExactly)
    (hscalar : u.isScalar = true) : u.toMatrix = exp (u.a.arg * I) • 1 := by
  obtain ⟨hb, hc, hd⟩ := hexact.scalar hscalar
  rw [Amplitude.norm_eq, norm_eq_zero] at hb hc hd
  rw [Amplitude.toComplex_sub, sub_eq_zero] at hd
  refine Matrix2.toMatrix_eq_phase (z := u.a.toComplex) hu ?_
  ext i j
  cases i <;> cases j <;> simp [Matrix2.toMatrix, hb, hc, hd]

/-- The rotations by the Euler angles, wrapped, and all the phase owed, are the matrix. -/
lemma phasedOperator_rotations {wire : ℕ} (hwire : wire < n) {u : Matrix2 ℝ} (hu : u.toMatrix ∈ unitaryGroup Bool ℂ)
    (hexact : u.JudgedExactly) (hscalar : u.isScalar = false) :
    phasedOperator n (lowerGate phase (.unitary wire u)) =
      exp (phase * I) • wireOperator n wire fun _ => u.toMatrix := by
  have hignores (M : Matrix Bool Bool ℂ) : Ignores wire fun _ => M := fun _ _ => rfl
  have hblock (axis : Axis) (t angle : ℝ) :
      phasedOperator n ((wrappedRotation wire axis angle).1, t + (wrappedRotation wire axis angle).2) =
        exp (t * I) • wireOperator n wire fun _ => axis.rotation angle := by
    rw [phasedOperator_add, ← phasedOperator_wrappedRotation]
  have hproduct : wireOperator n wire (fun _ => u.zyz.rotation) =
      wireOperator n wire (fun _ => Axis.z.rotation u.zyz.alpha) *
        (wireOperator n wire (fun _ => Axis.y.rotation u.zyz.beta) *
          wireOperator n wire fun _ => Axis.z.rotation u.zyz.gamma) := by
    rw [wireOperator_mul hwire _ _ (hignores _), wireOperator_mul hwire _ _ (hignores _), EulerAngles.rotation]
    simp only [Matrix.mul_assoc]
  rw [lowerGate, hscalar, if_neg Bool.false_ne_true]
  dsimp only
  -- each block brings its own sign, and the phase of the matrix is carried by the first
  rw [phasedOperator_append, phasedOperator_append, hblock]
  change phasedOperator n (wrappedRotation wire .z u.zyz.alpha) *
    (phasedOperator n (wrappedRotation wire .y u.zyz.beta) * _) = _
  rw [phasedOperator_wrappedRotation, phasedOperator_wrappedRotation, Matrix.mul_smul, Matrix.mul_smul, ← hproduct,
    Complex.exp_ofReal_add_mul_I, mul_smul, ← wireOperator_smul, Matrix2.zyz_spec hu hexact hscalar]

/-- Lowering a gate keeps its operator, the phase included. -/
lemma phasedOperator_lowerGate (phase : ℝ) (hfits : g.Fits n) (hu : g.IsUnitary) (hexact : g.JudgedExactly) :
    phasedOperator n (lowerGate phase g) = exp (phase * I) • g.operator n := by
  cases g with
  | unitary wire u =>
    cases hscalar : u.isScalar with
    | true =>
      rw [lowerGate, hscalar, if_pos rfl, phasedOperator_add, phasedOperator_mk, gatesOperator_nil, ← wireOperator_one,
        ← wireOperator_smul, ← toMatrix_of_isScalar hu hexact hscalar]
      rfl
    | false => exact phasedOperator_rotations hfits hu hexact hscalar
  | rotation wire axis angle =>
    rw [lowerGate_of_not_isMatrix id, phasedOperator_mk, gatesOperator_singleton]
  | entangler control target =>
    rw [lowerGate_of_not_isMatrix id, phasedOperator_mk, gatesOperator_singleton]

/-- Lowering puts a block that may stand for the gate. -/
lemma lowersTo_lowerGate : g.LowersTo (lowerGate phase g).1 := by
  cases g with
  | unitary wire u =>
    rw [lowerGate]
    split
    · exact ⟨Nat.zero_le 3, fun g' hg' => absurd hg' List.not_mem_nil⟩
    · dsimp only
      constructor
      · have hgamma := length_wrappedRotation_le wire .z u.zyz.gamma
        have hbeta := length_wrappedRotation_le wire .y u.zyz.beta
        have halpha := length_wrappedRotation_le wire .z u.zyz.alpha
        rw [List.length_append, List.length_append]
        omega
      · intro g' hg'
        rw [List.mem_append, List.mem_append] at hg'
        obtain (hgamma | hbeta) | halpha := hg'
        · exact isShortRotation_of_mem_wrappedRotation _ _ _ hgamma
        · exact isShortRotation_of_mem_wrappedRotation _ _ _ hbeta
        · exact isShortRotation_of_mem_wrappedRotation _ _ _ halpha
  | rotation => rfl
  | entangler => rfl

/-- Gates are lowered one after the other, the phase being passed on. -/
lemma lowerGates_cons : lowerGates phase (g :: gates) =
    ((lowerGate phase g).1 ++ (lowerGates (lowerGate phase g).2 gates).1, (lowerGates (lowerGate phase g).2 gates).2) := rfl

/-- Lowering a list of gates keeps its operator, the phase included. -/
lemma phasedOperator_lowerGates (phase : ℝ) (hfits : ∀ g ∈ gates, g.Fits n) (hu : ∀ g ∈ gates, g.IsUnitary)
    (hexact : ∀ g ∈ gates, g.JudgedExactly) :
    phasedOperator n (lowerGates phase gates) = phasedOperator n (gates, phase) := by
  induction gates generalizing phase with
  | nil => rfl
  | cons g gates ih =>
    rw [List.forall_mem_cons] at hfits hu hexact
    have hhead := phasedOperator_lowerGate phase hfits.1 hu.1 hexact.1
    have htail := ih (lowerGate phase g).2 hfits.2 hu.2 hexact.2
    -- the phase that the head leaves is the one the tail starts from
    calc phasedOperator n (lowerGates phase (g :: gates))
        = phasedOperator n (lowerGates (lowerGate phase g).2 gates) * gatesOperator n (lowerGate phase g).1 := by
          rw [lowerGates_cons, phasedOperator, phasedOperator, gatesOperator_append, Matrix.smul_mul]
      _ = gatesOperator n gates * phasedOperator n (lowerGate phase g) := by
          rw [htail, phasedOperator_mk, phasedOperator, Matrix.smul_mul, Matrix.mul_smul]
      _ = phasedOperator n (g :: gates, phase) := by
          rw [hhead, phasedOperator_mk, gatesOperator_cons, Matrix.mul_smul]

/-- What is lowered is a list of blocks, one for each gate. -/
lemma exists_blocks_lowerGates (phase : ℝ) (gates : List (ElementaryGate ℝ)) : ∃ blocks : List (List (ElementaryGate ℝ)),
    (lowerGates phase gates).1 = blocks.flatten ∧ List.Forall₂ ElementaryGate.LowersTo gates blocks := by
  induction gates generalizing phase with
  | nil => exact ⟨[], rfl, .nil⟩
  | cons g gates ih =>
    obtain ⟨blocks, hflat, hblocks⟩ := ih (lowerGate phase g).2
    refine ⟨(lowerGate phase g).1 :: blocks, ?_, .cons lowersTo_lowerGate hblocks⟩
    rw [lowerGates_cons, hflat, List.flatten_cons]

/-- No matrix is left after lowering. -/
lemma not_isMatrix_lowerGates : ∀ g ∈ (lowerGates phase gates).1, ¬g.IsMatrix := by
  induction gates generalizing phase with
  | nil => exact fun g hg => absurd hg List.not_mem_nil
  | cons g gates ih =>
    rw [lowerGates_cons]
    exact List.forall_mem_append.2 ⟨lowersTo_lowerGate.not_isMatrix, ih⟩

/-- Without matrices there is nothing to lower. -/
lemma lowerGates_eq_self (h : ∀ g ∈ gates, ¬g.IsMatrix) : lowerGates phase gates = (gates, phase) := by
  induction gates with
  | nil => rfl
  | cons g gates ih =>
    rw [List.forall_mem_cons] at h
    rw [lowerGates_cons, lowerGate_of_not_isMatrix h.1, ih h.2, List.singleton_append]

end Gates

variable {p : Program ℝ}

/-- Lowering keeps the operator of a program, global phase included. There are no matrices afterwards: each has become
at most three rotations of its wire by at most half a turn, among the other gates in their order. Lowering again changes
nothing. -/
theorem lower_spec (hfits : p.Fits) (hu : ∀ g ∈ p.gates, g.IsUnitary) (hexact : ∀ g ∈ p.gates, g.JudgedExactly) :
    p.lower.operator = p.operator ∧ (∀ g ∈ p.lower.gates, ¬g.IsMatrix) ∧
      (∃ blocks : List (List (ElementaryGate ℝ)),
        p.lower.gates = blocks.flatten ∧ List.Forall₂ ElementaryGate.LowersTo p.gates blocks) ∧
      p.lower.lower = p.lower := by
  refine ⟨?_, not_isMatrix_lowerGates, exists_blocks_lowerGates _ _, ?_⟩
  · rw [operator_eq_phasedOperator, operator_eq_phasedOperator]
    exact phasedOperator_lowerGates _ hfits hu hexact
  · have hagain : lowerGates p.lower.phase p.lower.gates = (p.lower.gates, p.lower.phase) :=
      lowerGates_eq_self not_isMatrix_lowerGates
    calc p.lower.lower = ⟨p.width, (lowerGates p.lower.phase p.lower.gates).1, (lowerGates p.lower.phase p.lower.gates).2,
        p.strategy⟩ := rfl
      _ = p.lower := by rw [hagain]; rfl

section Example

/-- Entries that are zero or large are judged exactly. -/
lemma judgedExactly_of_norm {u : Matrix2 ℝ} (ha : u.a.norm = 0 ∨ Matrix2.epsilon ≤ u.a.norm)
    (hb : u.b.norm = 0 ∨ Matrix2.epsilon ≤ u.b.norm) (hc : u.c.norm = 0 ∨ Matrix2.epsilon ≤ u.c.norm)
    (hd : (u.a - u.d).norm = 0 ∨ Matrix2.epsilon ≤ (u.a - u.d).norm) : u.JudgedExactly := by
  have hzero {x : ℝ} (hx : x = 0 ∨ Matrix2.epsilon ≤ x) (hlt : x < Matrix2.epsilon) : x = 0 :=
    hx.resolve_right (not_le.2 hlt)
  refine ⟨fun h => ?_, fun _ => ?_, fun _ _ => ?_⟩
  · simp only [Matrix2.isScalar, Bool.and_eq_true, decide_eq_true_eq] at h
    exact ⟨hzero hb h.1.1, hzero hc h.1.2, hzero hd h.2⟩
  · rw [Matrix2.unimodular]
    exact (Matrix2.norm_unimodular u.c _).symm ▸ hzero hc
  · rw [Matrix2.unimodular]
    exact (Matrix2.norm_unimodular u.a _).symm ▸ hzero ha

/-- A real matrix with entries that are zero or not small is judged exactly. -/
lemma judgedExactly_ofReals {a b c d : ℝ} (ha : a = 0 ∨ 1 / 2 ≤ |a|) (hb : b = 0 ∨ 1 / 2 ≤ |b|) (hc : c = 0 ∨ 1 / 2 ≤ |c|)
    (hd : a - d = 0 ∨ 1 / 2 ≤ |a - d|) : (Matrix2.ofReals a b c d).JudgedExactly := by
  have hlarge {x : ℝ} (hx : x = 0 ∨ 1 / 2 ≤ |x|) :
      (Amplitude.ofReal x).norm = 0 ∨ Matrix2.epsilon ≤ (Amplitude.ofReal x).norm := by
    rw [Amplitude.norm_ofReal, abs_eq_zero]
    refine hx.imp_right fun h => le_trans ?_ h
    change (1e-10 : ℝ) ≤ 1 / 2
    norm_num
  have hdiff : (Amplitude.ofReal a - Amplitude.ofReal d : Amplitude ℝ) = Amplitude.ofReal (a - d) := by
    apply Amplitude.toComplex_injective
    rw [Amplitude.toComplex_sub, Amplitude.toComplex_ofReal, Amplitude.toComplex_ofReal, Amplitude.toComplex_ofReal,
      Complex.ofReal_sub]
  refine judgedExactly_of_norm (hlarge ha) (hlarge hb) (hlarge hc) ?_
  change (Amplitude.ofReal a - Amplitude.ofReal d : Amplitude ℝ).norm = 0 ∨ _
  exact hdiff ▸ hlarge hd

/-- A Hadamard matrix, an exchange, an identity, a rotation and a controlled-NOT. -/
noncomputable def matrixTrio : Program ℝ :=
  ⟨2, [.unitary 0 .hadamard, .unitary 1 .pauliX, .unitary 0 .identity, .rotation 1 .y 1, .entangler 0 1], 1, .general⟩

/-- The gates of the example act on its two wires. -/
lemma matrixTrio_fits : matrixTrio.Fits := by
  simp [Fits, matrixTrio, ElementaryGate.Fits]

/-- The gates of the example are unitary. -/
lemma matrixTrio_isUnitary : ∀ g ∈ matrixTrio.gates, g.IsUnitary := by
  have hexchange : (Matrix2.pauliX : Matrix2 ℝ).toMatrix ∈ unitaryGroup Bool ℂ := exchange_mem_unitary
  simp [matrixTrio, ElementaryGate.IsUnitary, Matrix2.hadamard_mem_unitary, hexchange, one_mem]

/-- The matrices of the example have no entry near the tolerance. -/
lemma matrixTrio_judgedExactly : ∀ g ∈ matrixTrio.gates, g.JudgedExactly := by
  have hhalf : (1 : ℝ) / 2 ≤ Scalar.sqrtHalf := by
    rw [Scalar.sqrtHalf_real]
    exact Real.le_sqrt_of_sq_le (by norm_num)
  have habs : (1 : ℝ) / 2 ≤ |Scalar.sqrtHalf| := hhalf.trans (le_abs_self _)
  have hhadamard : (Matrix2.hadamard : Matrix2 ℝ).JudgedExactly := by
    refine judgedExactly_ofReals (.inr habs) (.inr habs) (.inr habs) (.inr ?_)
    rw [sub_neg_eq_add]
    exact le_trans (by linarith) (le_abs_self _)
  have hexchange : (Matrix2.pauliX : Matrix2 ℝ).JudgedExactly :=
    judgedExactly_ofReals (.inl rfl) (.inr (by norm_num)) (.inr (by norm_num)) (.inl (sub_self 0))
  have hidentity : (Matrix2.identity : Matrix2 ℝ).JudgedExactly :=
    judgedExactly_ofReals (.inr (by norm_num)) (.inl rfl) (.inl rfl) (.inl (sub_self 1))
  simp [matrixTrio, ElementaryGate.JudgedExactly, hhadamard, hexchange, hidentity]

/-- Three matrices, a rotation and a controlled-NOT are lowered. -/
theorem lower_spec_matrixTrio :
    matrixTrio.lower.operator = matrixTrio.operator ∧ matrixTrio.lower.lower = matrixTrio.lower :=
  have h := lower_spec matrixTrio_fits matrixTrio_isUnitary matrixTrio_judgedExactly
  ⟨h.1, h.2.2.2⟩

end Example

end Program

end CircuitSynthesis
