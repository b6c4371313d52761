import Mathlib
import CircuitSynthesis.Proofs.Circuit.Building
import CircuitSynthesis.Proofs.Exact.Dense
import CircuitSynthesis.Proofs.Register.OperandsOperator
import CircuitSynthesis.Proofs.Statevector.Gates

/-!
# The operator of a circuit

An instruction on its wires is an operator on the register (`amplitude_apply`), and a circuit is the product of its
instructions in reverse order times its global phase (`amplitude_run`). The dense operator of a circuit is therefore found
from the basis states alone: `operator_spec` says that it sends every state where the circuit sends it, that joining
circuits multiplies their operators, and that a circuit of unitary gates is unitary and keeps the norm of every state.
-/

namespace CircuitSynthesis

open Matrix
open Complex (I exp)

section Gates

/-- A matrix whose rows are orthonormal. -/
lemma mem_unitary_of_rows {N : ℕ} {M : Matrix (Fin N) (Fin N) ℂ}
    (h : ∀ i j, ∑ x, M i x * star (M j x) = if i = j then 1 else 0) : M ∈ unitaryGroup (Fin N) ℂ := by
  rw [mem_unitaryGroup_iff]
  ext i j
  rw [Matrix.mul_apply, one_apply, ← h]
  rfl

/-- A rotation about a self-adjoint axis is the exponential of a skew matrix. -/
lemma rotationAbout_mem_unitary {A : Matrix (Fin 2) (Fin 2) ℂ} (hA : Aᴴ = A) (t : ℝ) :
    rotationAbout A t ∈ unitaryGroup (Fin 2) ℂ := by
  have hskew : ((-I * t / 2) • A)ᴴ = -((-I * t / 2) • A) := by
    rw [conjTranspose_smul, hA, ← neg_smul]
    congr 1
    simp [neg_div]
  rw [mem_unitaryGroup_iff, star_eq_conjTranspose, rotationAbout, ← Matrix.exp_conjTranspose, hskew, Matrix.exp_neg]
  exact Matrix.mul_nonsing_inv _ ((Matrix.isUnit_iff_isUnit_det _).1 (Matrix.isUnit_exp _))

/-- Whether the matrix of a gate, if it is given by one, is unitary. -/
def Gate.IsUnitary : Gate ℝ → Prop
  | .standard _ => True
  | .matrix g => entriesMatrix g.arity g.entries ∈ unitaryGroup (Fin (2 ^ g.arity)) ℂ

/-- The documented matrix of a standard gate is unitary. -/
lemma StandardGate.documented_mem_unitary (g : StandardGate ℝ) :
    g.documented ∈ unitaryGroup (Fin (2 ^ g.arity)) ℂ := by
  cases g with
  | x | y | z | s | sdg =>
    refine mem_unitary_of_rows (N := 2) fun i j => ?_
    fin_cases i <;> fin_cases j <;> simp [documented]
  | h =>
    have hroot : (√2 : ℂ) * √2 = 2 := by
      rw [← Complex.ofReal_mul, Real.mul_self_sqrt (by norm_num)]
      norm_num
    change (1 / √2 : ℂ) • !![1, 1; 1, -1] ∈ unitaryGroup (Fin 2) ℂ
    refine mem_unitary_of_rows fun i j => ?_
    fin_cases i <;> fin_cases j <;> simp [← mul_inv, hroot] <;> norm_num
  | rx t | ry t | rz t =>
    refine rotationAbout_mem_unitary ?_ t
    ext i j
    fin_cases i <;> fin_cases j <;> simp
  | cx | cz | swap =>
    refine mem_unitary_of_rows (N := 4) fun i j => ?_
    fin_cases i <;> fin_cases j <;> simp [documented, Fin.sum_univ_four]

/-- The documented matrix of a gate with unitary entries is unitary. -/
lemma Gate.documented_mem_unitary {g : Gate ℝ} (hg : g.IsUnitary) : g.documented ∈ unitaryGroup (Fin (2 ^ g.arity)) ℂ := by
  cases g with
  | standard g => exact g.documented_mem_unitary
  | matrix g => exact hg

end Gates

section Instructions

variable {n : ℕ} {op : Instruction ℝ} {ops ops' : List (Instruction ℝ)}

/-- The operator of an instruction on a register of `n` wires; one that lacks operands does nothing. -/
noncomputable def Instruction.operator (n : ℕ) (op : Instruction ℝ) : Matrix (Fin (2 ^ n)) (Fin (2 ^ n)) ℂ :=
  if h : op.wires.length = op.gate.arity then operandsOperator n h op.gate.documented else 1

namespace Instruction.IsPlaced

/-- On wires that fit, the operator of an instruction is the documented matrix on its operands. -/
lemma operator_eq (h : op.IsPlaced n) : op.operator n = operandsOperator n h.length op.gate.documented := dif_pos h.length

/-- Applying an instruction multiplies the amplitudes by its operator. -/
lemma amplitude_apply (h : op.IsPlaced n) (s : Statevector ℝ n) :
    (s.apply op).amplitude = op.operator n *ᵥ s.amplitude := by
  funext i
  rw [h.operator_eq, operandsOperator_mulVec h.nodup h.range]
  exact Statevector.realizes_apply h.length h.nodup h.range s i

/-- A unitary gate on wires that fit is a unitary operator. -/
lemma operator_mem_unitary (h : op.IsPlaced n) (hu : op.gate.IsUnitary) :
    op.operator n ∈ unitaryGroup (Fin (2 ^ n)) ℂ := by
  rw [h.operator_eq]
  exact operandsOperator_mem_unitary h.nodup h.range (Gate.documented_mem_unitary hu)

end Instruction.IsPlaced

/-- The operator of a list of instructions, the first of which acts first. -/
noncomputable def instructionsOperator (n : ℕ) : List (Instruction ℝ) → Matrix (Fin (2 ^ n)) (Fin (2 ^ n)) ℂ
  | [] => 1
  | op :: ops => instructionsOperator n ops * op.operator n

/-- Of two lists of instructions the one that is applied first stands on the right. -/
lemma instructionsOperator_append :
    instructionsOperator n (ops ++ ops') = instructionsOperator n ops' * instructionsOperator n ops := by
  induction ops with
  | nil => exact (Matrix.mul_one _).symm
  | cons op ops ih => rw [List.cons_append, instructionsOperator, instructionsOperator, ih, Matrix.mul_assoc]

/-- Applying instructions in turn multiplies the amplitudes by their operator. -/
lemma amplitude_foldl_apply (h : ∀ op ∈ ops, op.IsPlaced n) (s : Statevector ℝ n) :
    (ops.foldl (fun s op => s.apply op) s).amplitude = instructionsOperator n ops *ᵥ s.amplitude := by
  induction ops generalizing s with
  | nil => exact (one_mulVec _).symm
  | cons op ops ih =>
    rw [List.forall_mem_cons] at h
    rw [List.foldl_cons, ih h.2, h.1.amplitude_apply, mulVec_mulVec, instructionsOperator]

/-- Unitary gates on wires that fit make up a unitary operator. -/
lemma instructionsOperator_mem_unitary (h : ∀ op ∈ ops, op.IsPlaced n) (hu : ∀ op ∈ ops, op.gate.IsUnitary) :
    instructionsOperator n ops ∈ unitaryGroup (Fin (2 ^ n)) ℂ := by
  induction ops with
  | nil => exact one_mem _
  | cons op ops ih =>
    rw [List.forall_mem_cons] at h hu
    exact mul_mem (ih h.2 hu.2) (h.1.operator_mem_unitary hu.1)

end Instructions

namespace Statevector

variable {n : ℕ}

/-- Basis state `j` has amplitude one at `j`. -/
lemma amplitude_basis (j : Fin (2 ^ n)) : (basis n j : Statevector ℝ n).amplitude = Pi.single j 1 := by
  funext i
  rw [amplitude, basis, Vector.get_ofFn, Nat.mod_eq_of_lt j.isLt, Pi.single_apply]
  simp only [← Fin.ext_iff]
  split <;> rfl

/-- The squared norm of a state is the sum of the squared moduli of its amplitudes. -/
lemma normSq_eq_sum (s : Statevector ℝ n) : s.normSq = ∑ i, ‖s.amplitude i‖ ^ 2 := by
  have hlist : s.toList.map Amplitude.normSq = List.ofFn fun i => ‖s.amplitude i‖ ^ 2 := by
    apply List.ext_getElem
    · simp
    · intro i hi hi'
      simp [amplitude, Vector.get_eq_getElem, Amplitude.normSq_eq_norm_sq]
  rw [normSq, hlist, ← List.sum_ofFn]
  exact (Scalar.map_sum id rfl (fun _ _ => rfl) _).trans (congrArg List.sum (List.map_id _))

end Statevector

namespace Circuit

variable {n : ℕ} {c a b : Circuit ℝ}

/-- The operator of a circuit on a register of `n` wires: its instructions in order, times the global phase. -/
noncomputable def matrix (c : Circuit ℝ) (n : ℕ) : Matrix (Fin (2 ^ n)) (Fin (2 ^ n)) ℂ :=
  exp (c.phase * I) • instructionsOperator n c.instructions.toList

/-- Running a circuit applies its operator; a phase of zero need not be applied. -/
lemma amplitude_run (h : ∀ op ∈ c.instructions, op.IsPlaced n) (s : Statevector ℝ n) :
    (s.run c).amplitude = c.matrix n *ᵥ s.amplitude := by
  have hfold := amplitude_foldl_apply (fun op hop => h op (Array.mem_toList_iff.1 hop)) s
  rw [Array.foldl_toList] at hfold
  rw [matrix, smul_mulVec, ← hfold, Statevector.run]
  dsimp only
  split
  case isTrue hzero =>
    have hphase : c.phase = 0 := by simpa using hzero
    rw [hphase, Complex.ofReal_zero, zero_mul, Complex.exp_zero, one_smul]
  case isFalse =>
    funext i
    simp [Statevector.amplitude, Vector.get_eq_getElem, mul_comm]

/-- A circuit of unitary gates has a unitary matrix. -/
lemma matrix_mem_unitary (h : ∀ op ∈ c.instructions, op.IsPlaced n) (hu : ∀ op ∈ c.instructions, op.gate.IsUnitary) :
    c.matrix n ∈ unitaryGroup (Fin (2 ^ n)) ℂ := by
  have hops := instructionsOperator_mem_unitary (fun op hop => h op (Array.mem_toList_iff.1 hop))
    fun op hop => hu op (Array.mem_toList_iff.1 hop)
  have hphase : star (exp (c.phase * I)) * exp (c.phase * I) = 1 := by
    rw [Complex.star_exp_mul_I, ← Complex.exp_ofReal_add_mul_I, neg_add_cancel, Complex.ofReal_zero, zero_mul,
      Complex.exp_zero]
  rw [mem_unitaryGroup_iff', matrix, star_smul, Matrix.smul_mul, Matrix.mul_smul, smul_smul, hphase, one_smul]
  exact mem_unitaryGroup_iff'.1 hops

/-- Joining circuits multiplies their operators and adds their phases. -/
lemma matrix_append (h : a.append b = .ok c) : c.matrix n = b.matrix n * a.matrix n := by
  obtain ⟨-, rfl⟩ := append_eq_ok_iff.1 h
  rw [matrix, matrix, matrix, Array.toList_append, instructionsOperator_append, Matrix.smul_mul, Matrix.mul_smul, smul_smul,
    ← Complex.exp_ofReal_add_mul_I, add_comm]

/-- A unitary circuit keeps the norm of a state. -/
lemma normSq_run (h : ∀ op ∈ c.instructions, op.IsPlaced n) (hu : ∀ op ∈ c.instructions, op.gate.IsUnitary)
    (s : Statevector ℝ n) : (s.run c).normSq = s.normSq := by
  have hsum (ψ : Fin (2 ^ n) → ℂ) : star ψ ⬝ᵥ ψ = ((∑ i, ‖ψ i‖ ^ 2 : ℝ) : ℂ) := by
    rw [dotProduct, Complex.ofReal_sum]
    refine Finset.sum_congr rfl fun i _ => ?_
    rw [Pi.star_apply, Complex.star_def, ← Complex.normSq_eq_conj_mul_self, Complex.normSq_eq_norm_sq]
  have hkeep : star (c.matrix n *ᵥ s.amplitude) ⬝ᵥ (c.matrix n *ᵥ s.amplitude) = star s.amplitude ⬝ᵥ s.amplitude := by
    rw [star_mulVec, ← dotProduct_mulVec, mulVec_mulVec, ← star_eq_conjTranspose,
      mem_unitaryGroup_iff'.1 (matrix_mem_unitary h hu), one_mulVec]
  rw [hsum, hsum, Complex.ofReal_inj] at hkeep
  rw [Statevector.normSq_eq_sum, Statevector.normSq_eq_sum, amplitude_run h, hkeep]

/-- The dense operator of a circuit, if its width is `n`. -/
noncomputable def operatorOn (c : Circuit ℝ) (n : ℕ) :
    Except SimulationError (Dense (Amplitude ℝ) (2 ^ n) (2 ^ n)) :=
  if h : c.width = n then h ▸ c.operator else .error (.widthMismatch c.width n)

/-- The operator on as many wires as the circuit has is the operator of the circuit. -/
lemma operatorOn_width (c : Circuit ℝ) : c.operatorOn c.width = c.operator := dif_pos rfl

/-- The dense operator is found column by column, from the basis states. -/
lemma operatorOn_eq_ok (h : ∀ op ∈ c.instructions, op.IsPlaced c.width) (hwidth : c.width = n) (hn : n ≤ maxDenseQubits) :
    ∃ U : Dense (Amplitude ℝ) (2 ^ n) (2 ^ n), c.operatorOn n = .ok U ∧ U.toMatrix = c.matrix n := by
  subst hwidth
  rw [operatorOn_width, operator, if_neg (not_lt.2 hn)]
  refine ⟨_, rfl, ?_⟩
  ext i j
  have hcolumn := congrFun (amplitude_run h (Statevector.basis c.width j)) i
  rw [Statevector.amplitude_basis, mulVec_single_one] at hcolumn
  rw [Dense.toMatrix_ofFn, Matrix.of_apply]
  simpa [Statevector.amplitude, Vector.get_eq_getElem] using hcolumn

/-- A built circuit that is not too wide has a dense operator, which sends every state where the circuit sends it. The
operator of two circuits joined is the product of their operators, the first one acting first. If the matrices of all
gates are unitary, so is the operator, and the circuit keeps the norm of every state. -/
theorem operator_spec (ha : a.Built) (hn : a.width ≤ maxDenseQubits) :
    ∃ U : Dense (Amplitude ℝ) (2 ^ a.width) (2 ^ a.width), a.operator = .ok U ∧
      (∀ s : Statevector ℝ a.width, ∃ s', s.applyCircuit a = .ok s' ∧ s'.amplitude = U.toMatrix *ᵥ s.amplitude) ∧
      (∀ b : Circuit ℝ, b.Built → b.width = a.width →
        ∃ c V W, a.append b = .ok c ∧ b.operatorOn a.width = .ok V ∧ c.operatorOn a.width = .ok W ∧
          W.toMatrix = V.toMatrix * U.toMatrix) ∧
      ((∀ op ∈ a.instructions, op.gate.IsUnitary) →
        U.toMatrix ∈ unitaryGroup (Fin (2 ^ a.width)) ℂ ∧
        ∀ s s' : Statevector ℝ a.width, s.applyCircuit a = .ok s' → s'.normSq = s.normSq) := by
  have hrun (s : Statevector ℝ a.width) : s.applyCircuit a = .ok (s.run a) := if_pos rfl
  obtain ⟨U, hU, hmatrix⟩ := operatorOn_eq_ok ha.isPlaced rfl hn
  rw [operatorOn_width] at hU
  refine ⟨U, hU, fun s => ⟨_, hrun s, ?_⟩, fun b hb hwidth => ?_, fun hu => ⟨?_, fun s s' hs => ?_⟩⟩
  · rw [hmatrix, amplitude_run ha.isPlaced]
  · obtain ⟨c, hc⟩ : ∃ c, a.append b = .ok c := ⟨_, append_eq_ok_iff.2 ⟨hwidth, rfl⟩⟩
    have hcwidth : c.width = a.width := by rw [(append_eq_ok_iff.1 hc).2]
    obtain ⟨V, hV, hVmatrix⟩ := operatorOn_eq_ok hb.isPlaced hwidth hn
    obtain ⟨W, hW, hWmatrix⟩ := operatorOn_eq_ok (ha.append hb hc).isPlaced hcwidth hn
    refine ⟨c, V, W, hc, hV, hW, ?_⟩
    rw [hWmatrix, hVmatrix, hmatrix, matrix_append hc]
  · rw [hmatrix]
    exact matrix_mem_unitary ha.isPlaced hu
  · obtain rfl : s.run a = s' := Except.ok.inj ((hrun s).symm.trans hs)
    exact normSq_run ha.isPlaced hu s

section Example

/-- The Pauli matrix `X` as an explicit matrix. -/
def flipGate : MatrixGate ℝ := ⟨"flip", 1, #[⟨0, 0⟩, ⟨1, 0⟩, ⟨1, 0⟩, ⟨0, 0⟩]⟩

/-- A flip by its matrix and an entangled pair, with a phase. -/
def flippedPair : Circuit ℝ :=
  ⟨"pair", 2, #[⟨.matrix flipGate, [1]⟩, ⟨.standard .h, [0]⟩, ⟨.standard .cx, [0, 1]⟩], 1⟩

/-- A rotation on the second of two wires. -/
def turnedSecond : Circuit ℝ := ⟨"turn", 2, #[⟨.standard (.ry 1), [1]⟩], 0⟩

/-- The matrix gate has unitary entries. -/
lemma flipGate_isUnitary : (Gate.matrix flipGate).IsUnitary := by
  refine mem_unitary_of_rows (N := 2) fun i j => ?_
  fin_cases i <;> fin_cases j <;> simp [entriesMatrix, flipGate, Amplitude.toComplex, Complex.ext_iff]

/-- The circuit is put together by calls of the builder. -/
lemma flippedPair_built : flippedPair.Built := by
  have hmade : MatrixGate.make "flip" 1 flipGate.entries = .ok flipGate := rfl
  have hflip : (⟨.matrix flipGate, [1]⟩ : Instruction ℝ).IsPlaced 2 := Instruction.check_eq_ok_iff.1 rfl
  have hturn : (⟨.standard .h, [0]⟩ : Instruction ℝ).IsPlaced 2 := Instruction.check_eq_ok_iff.1 rfl
  have hlink : (⟨.standard .cx, [0, 1]⟩ : Instruction ℝ).IsPlaced 2 := Instruction.check_eq_ok_iff.1 rfl
  exact ((((Built.empty "pair" 2).push (.matrix hmade) hflip).push (.standard _) hturn).push (.standard _) hlink).setPhase 1

/-- The circuit that comes second in the example is put together by calls of the builder as well. -/
lemma turnedSecond_built : turnedSecond.Built := by
  have hturn : (⟨.standard (.ry 1), [1]⟩ : Instruction ℝ).IsPlaced 2 := Instruction.check_eq_ok_iff.1 rfl
  exact (Built.empty "turn" 2).push (.standard _) hturn

/-- All gates of the example are unitary. -/
lemma flippedPair_isUnitary : ∀ op ∈ flippedPair.instructions, op.gate.IsUnitary := by
  simp only [flippedPair, List.mem_toArray, List.forall_mem_cons]
  exact ⟨flipGate_isUnitary, trivial, trivial, nofun⟩

/-- A circuit of a matrix gate and a standard gate, run on the ground state and followed by another circuit. -/
theorem operator_spec_flippedPair :
    flippedPair.Built ∧ flippedPair.width ≤ maxDenseQubits ∧
    ∃ U : Dense (Amplitude ℝ) (2 ^ 2) (2 ^ 2), flippedPair.operator = .ok U ∧
      (∃ s', (Statevector.ground 2).applyCircuit flippedPair = .ok s' ∧
        s'.amplitude = U.toMatrix *ᵥ (Statevector.ground 2).amplitude ∧
        s'.normSq = (Statevector.ground 2 : Statevector ℝ 2).normSq) ∧
      (∃ c V W, flippedPair.append turnedSecond = .ok c ∧ turnedSecond.operatorOn 2 = .ok V ∧ c.operatorOn 2 = .ok W ∧
        W.toMatrix = V.toMatrix * U.toMatrix) ∧
      U.toMatrix ∈ unitaryGroup (Fin (2 ^ 2)) ℂ := by
  obtain ⟨U, hU, hstate, hjoin, hunitary⟩ := operator_spec flippedPair_built (by decide)
  obtain ⟨hmem, hnorm⟩ := hunitary flippedPair_isUnitary
  obtain ⟨s', hs', hamplitude⟩ := hstate (Statevector.ground 2)
  exact ⟨flippedPair_built, by decide, U, hU, ⟨s', hs', hamplitude, hnorm _ _ hs'⟩,
    hjoin turnedSecond turnedSecond_built rfl, hmem⟩

end Example

end Circuit

end CircuitSynthesis
