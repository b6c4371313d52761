import Mathlib
import CircuitSynthesis.Proofs.Exact.Amplitude
import CircuitSynthesis.Proofs.Statevector.Kernels
import CircuitSynthesis.Statevector.Basic

/-!
# What the simulator computes

Every gate has a documented matrix: the fixed gates by their names, the rotations as exponentials of the matrix of their
axis, a matrix gate by its entries. `apply_spec` says that an instruction replaces each amplitude by the row of this
matrix that the operands select, applied to the amplitudes in the block; therefore a fixed gate does what a matrix gate
with its entries does, on every state.
-/

namespace CircuitSynthesis

open Matrix
open Complex (I)

section Rotations

/-- The rotation by an angle about the axis of a matrix. -/
noncomputable def rotationAbout (A : Matrix (Fin 2) (Fin 2) ℂ) (t : ℝ) : Matrix (Fin 2) (Fin 2) ℂ :=
  NormedSpace.exp ((-I * t / 2) • A)

/-- A diagonal of two entries, written out. -/
lemma diagonal_pair (a b : ℂ) : diagonal ![a, b] = !![a, 0; 0, b] := by
  ext i j
  fin_cases i <;> fin_cases j <;> rfl

/-- A rotation in a basis in which the axis is the third one. -/
lemma rotationAbout_eq {A V W : Matrix (Fin 2) (Fin 2) ℂ} (hinv : V * W = 1) (hA : V * !![1, 0; 0, -1] * W = A) (t : ℝ) :
    rotationAbout A t = V * !![Complex.exp (-I * t / 2), 0; 0, Complex.exp (I * t / 2)] * W := by
  have hW : W = V⁻¹ := (Matrix.inv_eq_right_inv hinv).symm
  have hunit : IsUnit V := IsUnit.of_mul_eq_one W hinv
  have hdiagonal : (-I * t / 2) • A = V * diagonal ![-I * t / 2, I * t / 2] * W := by
    rw [← hA, ← Matrix.smul_mul, ← Matrix.mul_smul, ← diagonal_pair, ← diagonal_smul]
    congr 3
    ext i
    fin_cases i
    · simp
    · simp
      ring
  have hexp : NormedSpace.exp ![-I * t / 2, I * t / 2] = ![Complex.exp (-I * t / 2), Complex.exp (I * t / 2)] := by
    ext i
    fin_cases i <;> simp [Complex.exp_eq_exp_ℂ]
  rw [rotationAbout, hdiagonal, hW, Matrix.exp_conj V _ hunit, Matrix.exp_diagonal, hexp, diagonal_pair]

/-- The exponentials of half an angle. -/
lemma exp_half (t : ℝ) : Complex.exp (I * t / 2) = Complex.cos (t / 2) + Complex.sin (t / 2) * I ∧
    Complex.exp (-I * t / 2) = Complex.cos (t / 2) - Complex.sin (t / 2) * I := by
  constructor
  · rw [← Complex.exp_mul_I]
    congr 1
    ring
  · rw [sub_eq_add_neg, ← neg_mul, ← Complex.sin_neg, ← Complex.cos_neg, ← Complex.exp_mul_I]
    congr 1
    ring

/-- The rotation about the first Pauli matrix, written out. -/
lemma rotationAbout_x (t : ℝ) : rotationAbout !![0, 1; 1, 0] t =
    !![Complex.cos (t / 2), -Complex.sin (t / 2) * I; -Complex.sin (t / 2) * I, Complex.cos (t / 2)] := by
  obtain ⟨hplus, hminus⟩ := exp_half t
  -- the eigenvectors of the axis are the columns of the change of basis
  have hinv : (!![1, 1; 1, -1] : Matrix (Fin 2) (Fin 2) ℂ) * !![1 / 2, 1 / 2; 1 / 2, -1 / 2] = 1 := by
    rw [Matrix.mul_fin_two, Matrix.one_fin_two]
    norm_num
  have hA : (!![1, 1; 1, -1] : Matrix (Fin 2) (Fin 2) ℂ) * !![1, 0; 0, -1] * !![1 / 2, 1 / 2; 1 / 2, -1 / 2] =
      !![0, 1; 1, 0] := by
    rw [Matrix.mul_fin_two, Matrix.mul_fin_two]
    norm_num
  rw [rotationAbout_eq hinv hA t, hplus, hminus, Matrix.mul_fin_two, Matrix.mul_fin_two]
  ring_nf

/-- The rotation about the second Pauli matrix, written out. -/
lemma rotationAbout_y (t : ℝ) : rotationAbout !![0, -I; I, 0] t =
    !![Complex.cos (t / 2), -Complex.sin (t / 2); Complex.sin (t / 2), Complex.cos (t / 2)] := by
  obtain ⟨hplus, hminus⟩ := exp_half t
  have hinv : (!![1, 1; I, -I] : Matrix (Fin 2) (Fin 2) ℂ) * !![1 / 2, -I / 2; 1 / 2, I / 2] = 1 := by
    rw [Matrix.mul_fin_two, Matrix.one_fin_two]
    ring_nf
    simp
  have hA : (!![1, 1; I, -I] : Matrix (Fin 2) (Fin 2) ℂ) * !![1, 0; 0, -1] * !![1 / 2, -I / 2; 1 / 2, I / 2] =
      !![0, -I; I, 0] := by
    rw [Matrix.mul_fin_two, Matrix.mul_fin_two]
    ring_nf
  rw [rotationAbout_eq hinv hA t, hplus, hminus, Matrix.mul_fin_two, Matrix.mul_fin_two]
  ring_nf
  simp

/-- The rotation about the third Pauli matrix, written out. -/
lemma rotationAbout_z (t : ℝ) : rotationAbout !![1, 0; 0, -1] t =
    !![Complex.exp (-I * t / 2), 0; 0, Complex.exp (I * t / 2)] := by
  have hA : (1 : Matrix (Fin 2) (Fin 2) ℂ) * !![1, 0; 0, -1] * 1 = !![1, 0; 0, -1] := by
    rw [Matrix.one_mul, Matrix.mul_one]
  rw [rotationAbout_eq (mul_one 1) hA, Matrix.one_mul, Matrix.mul_one]

end Rotations

section Documented

/-- The documented matrix of a fixed gate; the operands of a controlled-NOT are the control and the target. -/
noncomputable def StandardGate.documented : (g : StandardGate ℝ) → Matrix (Fin (2 ^ g.arity)) (Fin (2 ^ g.arity)) ℂ
  | x => !![0, 1; 1, 0]
  | y => !![0, -I; I, 0]
  | z => !![1, 0; 0, -1]
  | h => (1 / √2 : ℂ) • !![1, 1; 1, -1]
  | s => !![1, 0; 0, I]
  | sdg => !![1, 0; 0, -I]
  | rx t => rotationAbout !![0, 1; 1, 0] t
  | ry t => rotationAbout !![0, -I; I, 0] t
  | rz t => rotationAbout !![1, 0; 0, -1] t
  | cx => !![1, 0, 0, 0; 0, 0, 0, 1; 0, 0, 1, 0; 0, 1, 0, 0]
  | cz => !![1, 0, 0, 0; 0, 1, 0, 0; 0, 0, 1, 0; 0, 0, 0, -1]
  | swap => !![1, 0, 0, 0; 0, 0, 1, 0; 0, 1, 0, 0; 0, 0, 0, 1]

/-- The matrix of a list of entries, row by row. -/
noncomputable def entriesMatrix (k : ℕ) (entries : Array (Amplitude ℝ)) : Matrix (Fin (2 ^ k)) (Fin (2 ^ k)) ℂ :=
  fun r c => (entries.getD (r * 2 ^ k + c) 0).toComplex

/-- The documented matrix of a gate. -/
noncomputable def Gate.documented : (g : Gate ℝ) → Matrix (Fin (2 ^ g.arity)) (Fin (2 ^ g.arity)) ℂ
  | .standard g => g.documented
  | .matrix g => entriesMatrix g.arity g.entries

/-- The matrix gate with the entries of a gate. -/
noncomputable def Gate.dense (g : Gate ℝ) (name : String) : MatrixGate ℝ :=
  ⟨name, g.arity, Array.ofFn fun e : Fin (2 ^ g.arity * 2 ^ g.arity) => .ofComplex (g.documented e.divNat e.modNat)⟩

end Documented

namespace Statevector

variable {n k q : ℕ} {wires : List ℕ}

/-- The amplitude of a basis state as a complex number. -/
def amplitude (s : Statevector ℝ n) (i : Fin (2 ^ n)) : ℂ := (s.get i).toComplex

/-- A state is known by its amplitudes. -/
lemma amplitude_injective {s t : Statevector ℝ n} (h : ∀ i, s.amplitude i = t.amplitude i) : s = t :=
  Vector.ext fun i hi => Amplitude.toComplex_injective (h ⟨i, hi⟩)

/-- Whether a state comes from another by a matrix on the operands. -/
def Realizes (hlength : wires.length = k) (hrange : ∀ q ∈ wires, q < n) (m : Matrix (Fin (2 ^ k)) (Fin (2 ^ k)) ℂ)
    (s s' : Statevector ℝ n) : Prop :=
  ∀ i, s'.amplitude i = ∑ x, m (operandIndexFin hlength i) x * s.amplitude (setOperandsFin hrange x i)

section Loops

variable {hlength : wires.length = k} {hrange : ∀ q ∈ wires, q < n} {s : Statevector ℝ n}

/-- A loop over single amplitudes realizes a diagonal matrix. -/
lemma realizes_updateEach {f : ℕ → Amplitude ℝ → Amplitude ℝ} (d : Fin (2 ^ k) → ℂ)
    (hf : ∀ (i : Fin (2 ^ n)) a, (f i a).toComplex = d (operandIndexFin hlength i) * a.toComplex) :
    Realizes hlength hrange (diagonal d) s (s.updateEach f) := by
  intro i
  have hself : setOperandsFin hrange (operandIndexFin hlength i) i = i := Fin.ext (setOperands_operandIndex wires i)
  rw [Finset.sum_eq_single (operandIndexFin hlength i), diagonal_apply_eq, hself, amplitude, get_updateEach, hf]
  · rfl
  · intro x _ hx
    rw [diagonal_apply_ne' d hx, zero_mul]
  · exact fun h => absurd (Finset.mem_univ _) h

/-- A loop of exchanges realizes the involution that exchanges the values of the operands. -/
lemma realizes_swapWith (hnodup : wires.Nodup) {chosen : ℕ → Bool} {partner : ℕ → ℕ}
    {m : Matrix (Fin (2 ^ k)) (Fin (2 ^ k)) ℂ} (π : Fin (2 ^ k) → Fin (2 ^ k)) (c : Fin (2 ^ k) → Bool)
    (hm : ∀ r x, m r x = if x = π r then 1 else 0) (hπ : ∀ r, π (π r) = r) (hc : ∀ r, c r = true → c (π r) = false)
    (hfixed : ∀ r, c r = false → c (π r) = false → π r = r)
    (hchosen : ∀ i : Fin (2 ^ n), chosen i = c (operandIndexFin hlength i))
    (hpartner : ∀ i : Fin (2 ^ n), chosen i = true → partner i = setOperands wires (π (operandIndexFin hlength i)) i) :
    Realizes hlength hrange m s (s.swapWith chosen partner) := by
  subst hlength
  let σ (i : Fin (2 ^ n)) : Fin (2 ^ n) := setOperandsFin hrange (π (operandIndexFin rfl i)) i
  have hindex (i : Fin (2 ^ n)) : operandIndexFin rfl (σ i) = π (operandIndexFin rfl i) :=
    Fin.ext (operandIndex_setOperands hnodup (π _).isLt)
  have hself (i : Fin (2 ^ n)) : setOperandsFin hrange (operandIndexFin (rfl : wires.length = wires.length) i) i = i :=
    Fin.ext (setOperands_operandIndex wires i)
  intro i
  rw [amplitude, get_swapWith σ]
  · rw [Finset.sum_eq_single (π (operandIndexFin rfl i)), hm, if_pos rfl, one_mul]
    · rfl
    · intro x _ hx
      rw [hm, if_neg hx, zero_mul]
    · exact fun h => absurd (Finset.mem_univ _) h
  · intro i
    calc σ (σ i) = setOperandsFin hrange (π (π (operandIndexFin rfl i))) (σ i) := by rw [← hindex i]
      _ = i := by rw [hπ, setOperandsFin_setOperandsFin, hself]
  · intro i hi
    rw [hchosen] at hi
    exact ⟨(hpartner i (hchosen i ▸ hi)).symm, by rw [hchosen, hindex, hc _ hi]⟩
  · intro i hi hother
    rw [hchosen] at hi
    rw [hchosen, hindex] at hother
    calc σ i = setOperandsFin hrange (operandIndexFin rfl i) i := by rw [← hfixed _ hi hother]
      _ = i := hself i

/-- A loop over pairs realizes the matrix that it applies to each pair. -/
lemma realizes_updatePairs (hq : q < n) {hlength : [q].length = 1} {hrange : ∀ p ∈ [q], p < n}
    (m : Matrix (Fin 2) (Fin 2) ℂ) {f : Amplitude ℝ → Amplitude ℝ → Amplitude ℝ × Amplitude ℝ}
    (hf : ∀ a b, (f a b).1.toComplex = m 0 0 * a.toComplex + m 0 1 * b.toComplex ∧
      (f a b).2.toComplex = m 1 0 * a.toComplex + m 1 1 * b.toComplex) :
    Realizes hlength hrange m s (s.updatePairs (wireMask q) f) := by
  intro i
  have hset (x : Fin 2) : setOperandsFin hrange x i = setWireFin hq (x.val.testBit 0) i := rfl
  have hsum : ∑ x : Fin (2 ^ 1), m (operandIndexFin hlength i) x * s.amplitude (setOperandsFin hrange x i) =
      m (operandIndexFin hlength i) 0 * s.amplitude (setWireFin hq false i) +
        m (operandIndexFin hlength i) 1 * s.amplitude (setWireFin hq true i) := Fin.sum_univ_two _
  rw [hsum, amplitude, get_updatePairs hq]
  cases hbit : i.val.testBit q with
  | true =>
    have hindex : operandIndexFin hlength i = (1 : Fin 2) := Fin.ext (by simp [operandIndexFin, operandIndex, hbit])
    rw [if_pos rfl, (hf _ _).2, hindex]
    rfl
  | false =>
    have hindex : operandIndexFin hlength i = (0 : Fin 2) := Fin.ext (by simp [operandIndexFin, operandIndex, hbit])
    rw [if_neg Bool.false_ne_true, (hf _ _).1, hindex]
    rfl

/-- The loop of a matrix gate realizes the matrix of its entries. -/
lemma realizes_applyMatrix (hnodup : wires.Nodup) (entries : Array (Amplitude ℝ)) :
    Realizes hlength hrange (entriesMatrix k entries) s (s.applyMatrix wires entries) := by
  subst hlength
  intro i
  have hsum (g : ℕ → ℂ) (N : ℕ) : ((List.range N).map g).sum = ∑ x : Fin N, g x := Finset.sum_range g
  rw [amplitude, get_applyMatrix hnodup hrange, rowValue, Amplitude.toComplex_sum, List.map_map, hsum]
  refine Finset.sum_congr rfl fun x _ => ?_
  rw [Function.comp_apply, Amplitude.toComplex_mul, ← val_setOperandsFin hrange, getD_eq_get]
  rfl

end Loops

section Kernels

variable {s : Statevector ℝ n}

/-- The value of a single operand. -/
lemma operandIndexFin_single {hlength : [q].length = 1} (i : ℕ) :
    operandIndexFin hlength i = (if i.testBit q then 1 else 0 : Fin 2) := by
  apply Fin.ext
  change Nat.bit (i.testBit q) 0 = _
  cases i.testBit q <;> rfl

/-- The value of two operands, the first of which is the lower bit. -/
lemma operandIndexFin_pair {p q : ℕ} {hlength : [p, q].length = 2} (i : ℕ) : operandIndexFin hlength i =
    (if i.testBit p then (if i.testBit q then 3 else 1) else (if i.testBit q then 2 else 0) : Fin 4) := by
  apply Fin.ext
  change Nat.bit (i.testBit p) (Nat.bit (i.testBit q) 0) = _
  cases i.testBit p <;> cases i.testBit q <;> rfl

variable {hlength : [q].length = 1} {hrange : ∀ p ∈ [q], p < n}

/-- The kernel of the first Pauli gate exchanges the two amplitudes of each pair. -/
lemma realizes_applyX : Realizes hlength hrange !![0, 1; 1, 0] s (s.applyX q) := by
  change Realizes hlength hrange !![0, 1; 1, 0] s (s.swapWith (fun i => i &&& wireMask q = 0) (· ||| wireMask q))
  apply realizes_swapWith (k := 1) (List.nodup_singleton q) ![1, 0] (fun r => decide (r = 0))
  · intro (r : Fin 2) (x : Fin 2)
    fin_cases r <;> fin_cases x <;> rfl
  · decide
  · decide
  · decide
  · intro i
    rw [operandIndexFin_single]
    simp only [and_wireMask_eq_zero_iff]
    cases i.val.testBit q <;> rfl
  · intro i hi
    rw [decide_eq_true_eq, and_wireMask_eq_zero_iff] at hi
    rw [operandIndexFin_single, hi, or_wireMask]
    rfl

/-- The kernel of a phase multiplies the second amplitude of each pair. -/
lemma realizes_applyPhase (angle : ℝ) :
    Realizes hlength hrange (diagonal ![1, Complex.exp (angle * I)]) s (s.applyPhase q angle) := by
  refine realizes_updateEach (k := 1) ![1, Complex.exp (angle * I)] fun i a => ?_
  rw [operandIndexFin_single]
  simp only [ne_eq, and_wireMask_eq_zero_iff]
  cases i.val.testBit q
  · exact (one_mul _).symm
  · exact (Amplitude.toComplex_mul _ _).trans (by rw [Amplitude.toComplex_phase, mul_comm]; rfl)

/-- The kernel of a rotation about the third axis multiplies both. -/
lemma realizes_applyRz (angle : ℝ) :
    Realizes hlength hrange (diagonal ![Complex.exp (-I * angle / 2), Complex.exp (I * angle / 2)]) s
      (s.applyRz q angle) := by
  have hlow : (Amplitude.phase (-angle / Scalar.two)).toComplex = Complex.exp (-I * angle / 2) := by
    rw [Amplitude.toComplex_phase, Scalar.two_real]
    congr 1
    push_cast
    ring
  have hhigh : (Amplitude.phase (angle / Scalar.two)).toComplex = Complex.exp (I * angle / 2) := by
    rw [Amplitude.toComplex_phase, Scalar.two_real]
    congr 1
    push_cast
    ring
  refine realizes_updateEach (k := 1) ![Complex.exp (-I * angle / 2), Complex.exp (I * angle / 2)] fun i a => ?_
  rw [operandIndexFin_single]
  simp only [and_wireMask_eq_zero_iff]
  cases i.val.testBit q
  · refine (Amplitude.toComplex_mul _ _).trans ?_
    rw [hlow, mul_comm]
    rfl
  · refine (Amplitude.toComplex_mul _ _).trans ?_
    rw [hhigh, mul_comm]
    rfl

/-- The kernel of the second Pauli gate exchanges and multiplies. -/
lemma realizes_applyY (hq : q < n) : Realizes hlength hrange !![0, -I; I, 0] s (s.applyY q) := by
  change Realizes hlength hrange !![0, -I; I, 0] s
    (s.updatePairs (wireMask q) fun a b => (-Amplitude.i * b, Amplitude.i * a))
  refine realizes_updatePairs hq _ fun a b => ?_
  simp

/-- The kernel of the Hadamard gate takes sums and differences of each pair. -/
lemma realizes_applyH (hq : q < n) :
    Realizes hlength hrange ((1 / √2 : ℂ) • !![1, 1; 1, -1]) s (s.applyH q) := by
  rw [applyH_eq]
  refine realizes_updatePairs hq _ fun a b => ?_
  constructor
  · simp [mul_add]
  · simp [sub_eq_add_neg, mul_add]

/-- The kernel of a rotation about the first axis mixes each pair. -/
lemma realizes_applyRx (hq : q < n) (angle : ℝ) :
    Realizes hlength hrange (rotationAbout !![0, 1; 1, 0] angle) s (s.applyRx q angle) := by
  have hsin : (⟨0, -Scalar.sin (angle / Scalar.two)⟩ : Amplitude ℝ).toComplex = -Complex.sin (angle / 2) * I := by
    apply Complex.ext <;> simp [← Complex.ofReal_ofNat, ← Complex.ofReal_div, ← Complex.ofReal_sin]
  rw [rotationAbout_x, applyRx_eq]
  refine realizes_updatePairs hq _ fun a b => ?_
  constructor
  · rw [Amplitude.toComplex_add, Amplitude.toComplex_mul, hsin]
    simp
  · rw [Amplitude.toComplex_add, Amplitude.toComplex_mul, hsin]
    simp

/-- The kernel of a rotation about the second axis mixes each pair. -/
lemma realizes_applyRy (hq : q < n) (angle : ℝ) :
    Realizes hlength hrange (rotationAbout !![0, -I; I, 0] angle) s (s.applyRy q angle) := by
  rw [rotationAbout_y, applyRy_eq]
  refine realizes_updatePairs hq _ fun a b => ?_
  constructor
  · simp [sub_eq_add_neg]
  · simp

end Kernels

section PairKernels

variable {s : Statevector ℝ n} {p q : ℕ} {hlength : [p, q].length = 2} {hrange : ∀ r ∈ [p, q], r < n}

/-- A loop of exchanges where the first operand reads one and the second zero. -/
lemma realizes_swapPair (hne : p ≠ q) {partner : ℕ → ℕ} {m : Matrix (Fin 4) (Fin 4) ℂ} (π : Fin 4 → Fin 4)
    (hm : ∀ r x, m r x = if x = π r then 1 else 0) (hπ : ∀ r, π (π r) = r) (hone : π 1 ≠ 1)
    (hfixed : ∀ r, r ≠ 1 → π r ≠ 1 → π r = r)
    (hpartner : ∀ i : Fin (2 ^ n), i.val.testBit p = true → i.val.testBit q = false → partner i = setOperands [p, q] (π 1) i) :
    Realizes hlength hrange m s (s.swapWith (fun i => i &&& wireMask p ≠ 0 ∧ i &&& wireMask q = 0) partner) := by
  apply realizes_swapWith (k := 2) (by simpa using hne) π (fun r => decide (r = 1)) hm hπ
  · intro r hr
    rw [of_decide_eq_true hr]
    exact decide_eq_false hone
  · intro r hr hr'
    exact hfixed r (of_decide_eq_false hr) (of_decide_eq_false hr')
  · intro i
    rw [operandIndexFin_pair]
    simp only [ne_eq, and_wireMask_eq_zero_iff]
    cases i.val.testBit p <;> cases i.val.testBit q <;> rfl
  · intro i hi
    rw [decide_eq_true_eq, ne_eq, and_wireMask_eq_zero_iff, and_wireMask_eq_zero_iff, Bool.not_eq_false] at hi
    rw [operandIndexFin_pair, hi.1, hi.2]
    exact hpartner i hi.1 hi.2

/-- The kernel of the controlled-NOT exchanges the pairs whose control reads one. -/
lemma realizes_applyCx (hne : p ≠ q) :
    Realizes hlength hrange !![1, 0, 0, 0; 0, 0, 0, 1; 0, 0, 1, 0; 0, 1, 0, 0] s (s.applyCx p q) := by
  refine realizes_swapPair hne ![0, 3, 2, 1] ?_ (by decide) (by decide) (by decide) fun i hp _ => ?_
  · intro (r : Fin 4) (x : Fin 4)
    fin_cases r <;> fin_cases x <;> rfl
  · rw [or_wireMask]
    have hself : (setWire q true i).testBit p = true := by rw [testBit_setWire, if_neg hne, hp]
    have hwrite := setWire_testBit_self (q := p) (i := setWire q true i)
    rw [hself] at hwrite
    exact hwrite.symm

/-- The kernel of the controlled phase flip negates where both operands read one. -/
lemma realizes_applyCz :
    Realizes hlength hrange !![1, 0, 0, 0; 0, 1, 0, 0; 0, 0, 1, 0; 0, 0, 0, -1] s (s.applyCz p q) := by
  have hmatrix : (!![1, 0, 0, 0; 0, 1, 0, 0; 0, 0, 1, 0; 0, 0, 0, -1] : Matrix (Fin 4) (Fin 4) ℂ) =
      diagonal ![1, 1, 1, -1] := by
    ext r x
    fin_cases r <;> fin_cases x <;> rfl
  rw [hmatrix]
  refine realizes_updateEach (k := 2) ![1, 1, 1, -1] fun i a => ?_
  rw [operandIndexFin_pair]
  simp only [ne_eq, and_wireMask_eq_zero_iff]
  cases i.val.testBit p <;> cases i.val.testBit q
  · exact (one_mul _).symm
  · exact (one_mul _).symm
  · exact (one_mul _).symm
  · exact (neg_one_mul a.toComplex).symm

/-- The kernel of the exchange of wires exchanges the amplitudes whose operands differ. -/
lemma realizes_applySwap (hne : p ≠ q) :
    Realizes hlength hrange !![1, 0, 0, 0; 0, 0, 1, 0; 0, 1, 0, 0; 0, 0, 0, 1] s (s.applySwap p q) := by
  refine realizes_swapPair hne ![0, 2, 1, 3] ?_ (by decide) (by decide) (by decide) fun i hp _ => ?_
  · intro (r : Fin 4) (x : Fin 4)
    fin_cases r <;> fin_cases x <;> rfl
  · rw [or_wireMask]
    change setWire q true (i ^^^ wireMask p) = setWire p false (setWire q true i)
    apply Nat.eq_of_testBit_eq
    intro r
    rw [testBit_setWire, testBit_setWire, testBit_setWire, Nat.testBit_xor, testBit_wireMask]
    by_cases hr : r = p
    · rw [hr, if_neg hne, if_pos rfl, hp, decide_eq_true rfl, Bool.xor_self]
    · rw [if_neg hr, decide_eq_false (Ne.symm hr), Bool.xor_false]

end PairKernels

section Standard

variable {s : Statevector ℝ n}

/-- A quarter turn is the imaginary unit. -/
lemma phase_quarter : Complex.exp ((Real.pi / Scalar.two : ℝ) * I) = I := by
  rw [Scalar.two_real, Complex.ofReal_div, Complex.ofReal_ofNat, Complex.exp_pi_div_two_mul_I]

/-- A quarter turn back is its negative. -/
lemma phase_neg_quarter : Complex.exp ((-Real.pi / Scalar.two : ℝ) * I) = -I := by
  rw [neg_div, ← Complex.star_exp_mul_I, phase_quarter, Complex.star_def, Complex.conj_I]

/-- Every fixed gate realizes its documented matrix. -/
lemma realizes_applyStandard (g : StandardGate ℝ) (hlength : wires.length = g.arity) (hnodup : wires.Nodup)
    (hrange : ∀ q ∈ wires, q < n) : Realizes hlength hrange g.documented s (s.applyStandard g wires) := by
  have hmatrix {m m' : Matrix (Fin (2 ^ g.arity)) (Fin (2 ^ g.arity)) ℂ} {s' : Statevector ℝ n}
      (h : Realizes hlength hrange m s s') (hm : m' = m) : Realizes hlength hrange m' s s' := hm ▸ h
  cases g with
  | x =>
    obtain ⟨q, rfl⟩ := List.length_eq_one_iff.1 hlength
    exact realizes_applyX
  | y =>
    obtain ⟨q, rfl⟩ := List.length_eq_one_iff.1 hlength
    exact realizes_applyY (hrange q List.mem_cons_self)
  | z =>
    obtain ⟨q, rfl⟩ := List.length_eq_one_iff.1 hlength
    refine hmatrix (realizes_applyPhase Real.pi) ?_
    rw [Complex.exp_pi_mul_I, diagonal_pair]
    rfl
  | h =>
    obtain ⟨q, rfl⟩ := List.length_eq_one_iff.1 hlength
    exact realizes_applyH (hrange q List.mem_cons_self)
  | s =>
    obtain ⟨q, rfl⟩ := List.length_eq_one_iff.1 hlength
    refine hmatrix (realizes_applyPhase (Real.pi / Scalar.two)) ?_
    rw [phase_quarter, diagonal_pair]
    rfl
  | sdg =>
    obtain ⟨q, rfl⟩ := List.length_eq_one_iff.1 hlength
    refine hmatrix (realizes_applyPhase (-Real.pi / Scalar.two)) ?_
    rw [phase_neg_quarter, diagonal_pair]
    rfl
  | rx t =>
    obtain ⟨q, rfl⟩ := List.length_eq_one_iff.1 hlength
    exact realizes_applyRx (hrange q List.mem_cons_self) t
  | ry t =>
    obtain ⟨q, rfl⟩ := List.length_eq_one_iff.1 hlength
    exact realizes_applyRy (hrange q List.mem_cons_self) t
  | rz t =>
    obtain ⟨q, rfl⟩ := List.length_eq_one_iff.1 hlength
    refine hmatrix (realizes_applyRz t) ?_
    rw [diagonal_pair]
    exact rotationAbout_z t
  | cx =>
    obtain ⟨p, q, rfl⟩ := List.length_eq_two.1 hlength
    exact realizes_applyCx (by simpa using hnodup)
  | cz =>
    obtain ⟨p, q, rfl⟩ := List.length_eq_two.1 hlength
    exact realizes_applyCz
  | swap =>
    obtain ⟨p, q, rfl⟩ := List.length_eq_two.1 hlength
    exact realizes_applySwap (by simpa using hnodup)

end Standard

section Instructions

variable {op : Instruction ℝ}

/-- Every instruction realizes the documented matrix of its gate. -/
lemma realizes_apply (hlength : op.wires.length = op.gate.arity) (hnodup : op.wires.Nodup) (hrange : ∀ q ∈ op.wires, q < n)
    (s : Statevector ℝ n) : Realizes hlength hrange op.gate.documented s (s.apply op) := by
  obtain ⟨gate, wires⟩ := op
  cases gate with
  | standard g => exact realizes_applyStandard g hlength hnodup hrange
  | matrix g => exact realizes_applyMatrix hnodup g.entries

/-- The entries of the dense form are those of the documented matrix. -/
lemma entriesMatrix_dense (g : Gate ℝ) (name : String) : entriesMatrix g.arity (g.dense name).entries = g.documented := by
  ext r c
  have hlt : r.val * 2 ^ g.arity + c.val < 2 ^ g.arity * 2 ^ g.arity :=
    calc r.val * 2 ^ g.arity + c.val < r.val * 2 ^ g.arity + 2 ^ g.arity := Nat.add_lt_add_left c.isLt _
      _ = (r.val + 1) * 2 ^ g.arity := (Nat.succ_mul _ _).symm
      _ ≤ 2 ^ g.arity * 2 ^ g.arity := Nat.mul_le_mul_right _ r.isLt
  have hdiv : (⟨r.val * 2 ^ g.arity + c.val, hlt⟩ : Fin (2 ^ g.arity * 2 ^ g.arity)).divNat = r := by
    apply Fin.ext
    change (r.val * 2 ^ g.arity + c.val) / 2 ^ g.arity = r.val
    rw [Nat.mul_comm, Nat.mul_add_div (Nat.two_pow_pos _), Nat.div_eq_of_lt c.isLt, Nat.add_zero]
  have hmod : (⟨r.val * 2 ^ g.arity + c.val, hlt⟩ : Fin (2 ^ g.arity * 2 ^ g.arity)).modNat = c := by
    apply Fin.ext
    change (r.val * 2 ^ g.arity + c.val) % 2 ^ g.arity = c.val
    rw [Nat.mul_comm, Nat.mul_add_mod, Nat.mod_eq_of_lt c.isLt]
  have hget : (g.dense name).entries.getD (r.val * 2 ^ g.arity + c.val) 0 = .ofComplex (g.documented r c) := by
    simp [Gate.dense, hlt, hdiv, hmod]
  rw [entriesMatrix, hget, Amplitude.toComplex_ofComplex]

/-- An instruction on distinct wires of the register replaces every amplitude by the row of the documented matrix that the
operands select, applied to the amplitudes that differ in the operands alone. A matrix gate with the entries of that
matrix does the same. -/
theorem apply_spec (hlength : op.wires.length = op.gate.arity) (hnodup : op.wires.Nodup) (hrange : ∀ q ∈ op.wires, q < n)
    (s : Statevector ℝ n) :
    (∀ i, (s.apply op).amplitude i = ∑ x, op.gate.documented (operandIndexFin hlength i) x *
      s.amplitude (setOperandsFin hrange x i)) ∧
    ∀ name, s.apply ⟨.matrix (op.gate.dense name), op.wires⟩ = s.apply op := by
  have hop := realizes_apply hlength hnodup hrange s
  refine ⟨hop, fun name => amplitude_injective fun i => ?_⟩
  have hdense := @realizes_apply n ⟨.matrix (op.gate.dense name), op.wires⟩ hlength hnodup hrange s i
  have hmatrix : Gate.documented (.matrix (op.gate.dense name)) = op.gate.documented := entriesMatrix_dense op.gate name
  rw [hop i, hdense, hmatrix]
  rfl

end Instructions

section Example

/-- A controlled-NOT whose control is the highest of three wires. -/
def crossedNot : Instruction ℝ := ⟨.standard .cx, [2, 0]⟩

/-- The controlled-NOT of the example has a wire for each operand. -/
lemma crossedNot_length : crossedNot.wires.length = crossedNot.gate.arity := rfl

/-- The wires of the example are below three. -/
lemma crossedNot_range : ∀ q ∈ crossedNot.wires, q < 3 := by decide

/-- On the basis state in which the control alone reads one the target is flipped, by the kernel and by the dense form. -/
theorem apply_spec_crossedNot :
    (∀ i, ((basis 3 4).apply crossedNot).amplitude i =
      ∑ x, crossedNot.gate.documented (operandIndexFin crossedNot_length i) x *
        (basis 3 4).amplitude (setOperandsFin crossedNot_range x i)) ∧
    (basis 3 4).apply ⟨.matrix (crossedNot.gate.dense "cx"), crossedNot.wires⟩ = (basis 3 4).apply crossedNot ∧
    (basis 3 4 : Statevector ℝ 3).apply crossedNot = basis 3 5 :=
  have h := apply_spec crossedNot_length (by decide) crossedNot_range (basis 3 4)
  ⟨h.1, h.2 "cx", rfl⟩

end Example

end Statevector

end CircuitSynthesis
