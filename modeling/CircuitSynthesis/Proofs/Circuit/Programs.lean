import Mathlib
import CircuitSynthesis.Proofs.Circuit.Operator
import CircuitSynthesis.Proofs.Placement
import CircuitSynthesis.Proofs.Register.Operator

/-!
# The circuit of a program

A program becomes a circuit gate by gate. The circuit is refused as soon as a gate is not placed on the wires of the program
(`toCircuit_eq_ok_iff`). An instruction applies its matrix to a list of wires, where a gate of a program changes one wire in a
way that may depend on another: `operator_instruction` says that both are the same operator, and `operator_toCircuit` that the
operator found for the circuit is that of the program, its global phase included.
-/

namespace CircuitSynthesis

open Matrix
open Complex (I exp)

section Operators

variable {n k q control target : ℕ}

/-- An operator on a list of one wire is an operator on the wire. -/
lemma operandsOperator_singleton (hlength : [q].length = k) {m : Matrix (Fin (2 ^ k)) (Fin (2 ^ k)) ℂ}
    {u : Matrix Bool Bool ℂ} (hm : ∀ x y, m x y = u (x.val.testBit 0) (y.val.testBit 0)) :
    operandsOperator n hlength m = wireOperator n q fun _ => u := by
  have hread (i : ℕ) : (operandIndexFin hlength i).val.testBit 0 = i.testBit q := testBit_operandIndex Nat.one_pos
  have hset (i : ℕ) : setOperands [q] 0 i = setWire q false i := by
    rw [setOperands, Nat.zero_testBit]
    rfl
  ext i j
  rw [operandsOperator_apply, wireOperator_apply, hm, hread, hread, hset, hset]

/-- Indices agree outside two wires and on the first if and only if they agree outside the second. -/
lemma setOperands_pair_eq_iff (hne : control ≠ target) {i j : ℕ} :
    setOperands [control, target] 0 i = setOperands [control, target] 0 j ∧ i.testBit control = j.testBit control ↔
      setWire target false i = setWire target false j := by
  have hset (i : ℕ) : setOperands [control, target] 0 i = setWire control false (setWire target false i) := by
    simp only [setOperands, Nat.zero_testBit, Nat.zero_div]
  have hbit (i : ℕ) : (setWire target false i).testBit control = i.testBit control := by
    rw [testBit_setWire, if_neg hne]
  rw [hset, hset]
  constructor
  · rintro ⟨hagree, hcontrol⟩
    refine eq_of_setWire_eq hagree ?_
    rw [hbit, hbit, hcontrol]
  · intro h
    exact ⟨congrArg _ h, by rw [← hbit i, ← hbit j, h]⟩

/-- An operator on two wires that keeps the first one is an operator on the second one for each value of the first. -/
lemma operandsOperator_pair (hne : control ≠ target) (hlength : [control, target].length = k)
    {m : Matrix (Fin (2 ^ k)) (Fin (2 ^ k)) ℂ} {u : Bool → Matrix Bool Bool ℂ}
    (hm : ∀ x y, m x y = if x.val.testBit 0 = y.val.testBit 0
      then u (x.val.testBit 0) (x.val.testBit 1) (y.val.testBit 1) else 0) :
    operandsOperator n hlength m = wireOperator n target fun i => u (i.testBit control) := by
  have hcontrol (i : ℕ) : (operandIndexFin hlength i).val.testBit 0 = i.testBit control := testBit_operandIndex Nat.two_pos
  have htarget (i : ℕ) : (operandIndexFin hlength i).val.testBit 1 = i.testBit target :=
    testBit_operandIndex Nat.one_lt_two
  ext i j
  rw [operandsOperator_apply, wireOperator_apply, hm, hcontrol, hcontrol, htarget, htarget, ← ite_and]
  simp only [setOperands_pair_eq_iff hne]

end Operators

namespace ElementaryGate

variable {n : ℕ} {g : ElementaryGate ℝ}

/-- The documented matrix of a one-wire gate, by the bits of its indices. -/
lemma documented_unitary_apply (u : Matrix2 ℝ) (x y : Fin (2 ^ 1)) :
    entriesMatrix 1 u.entries.toArray x y = u.toMatrix (x.val.testBit 0) (y.val.testBit 0) := by
  fin_cases x <;> fin_cases y <;> rfl

/-- The documented rotation about the second axis is the rotation of the gate. -/
lemma documented_ry_apply (t : ℝ) (x y : Fin (2 ^ 1)) :
    (StandardGate.ry t).documented x y = Axis.y.rotation t (x.val.testBit 0) (y.val.testBit 0) := by
  rw [StandardGate.documented, rotationAbout_y, rotation_y_apply]
  fin_cases x <;> fin_cases y <;> simp

/-- The documented rotation about the third axis is the rotation of the gate. -/
lemma documented_rz_apply (t : ℝ) (x y : Fin (2 ^ 1)) :
    (StandardGate.rz t).documented x y = Axis.z.rotation t (x.val.testBit 0) (y.val.testBit 0) := by
  rw [StandardGate.documented, rotationAbout_z, rotation_z]
  fin_cases x <;> fin_cases y <;> simp
  · ring_nf
  · ring_nf

/-- The matrix of a controlled-NOT, by the values of the control and of the target. -/
lemma documented_cx_apply (x y : Fin (2 ^ 2)) : (StandardGate.cx : StandardGate ℝ).documented x y =
    if x.val.testBit 0 = y.val.testBit 0
      then (if x.val.testBit 0 then exchange else 1) (x.val.testBit 1) (y.val.testBit 1) else 0 := by
  fin_cases x <;> fin_cases y <;> simp [StandardGate.documented, exchange_apply, Nat.testBit]

/-- The instruction of a placed gate is the gate. -/
theorem operator_instruction (h : g.IsPlaced n) : g.instruction.operator n = g.operator n := by
  rw [h.instruction.operator_eq]
  cases g with
  | unitary wire u => exact operandsOperator_singleton _ (documented_unitary_apply u)
  | rotation wire axis t =>
    cases axis with
    | y => exact operandsOperator_singleton _ (documented_ry_apply t)
    | z => exact operandsOperator_singleton _ (documented_rz_apply t)
  | entangler control target =>
    exact operandsOperator_pair (u := fun b => if b then exchange else 1) (isPlaced_entangler.1 h).1 _ documented_cx_apply

/-- The instruction of a gate is accepted on the wires on which the gate is placed, and on no others. -/
lemma isPlaced_instruction_iff {R : Type} {g : ElementaryGate R} : g.instruction.IsPlaced n ↔ g.IsPlaced n :=
  ⟨fun h => ⟨h.nodup, h.range⟩, IsPlaced.instruction⟩

/-- Gates that were all added are placed. -/
lemma isPlaced_of_foldlM_addTo {R : Type} {gates : List (ElementaryGate R)} {c d : Circuit R}
    (h : gates.foldlM addTo c = .ok d) : ∀ g ∈ gates, g.IsPlaced c.width := by
  induction gates generalizing c with
  | nil => exact nofun
  | cons g gates ih =>
    rw [List.foldlM_cons] at h
    cases hadd : g.addTo c with
    | error e =>
      rw [hadd] at h
      cases h
    | ok c' =>
      rw [hadd] at h
      rw [addTo_eq_push] at hadd
      obtain ⟨hplaced, rfl⟩ := Circuit.push_eq_ok_iff.1 hadd
      have hrest := ih (c := { c with instructions := c.instructions.push g.instruction }) h
      exact List.forall_mem_cons.2 ⟨isPlaced_instruction_iff.1 hplaced, hrest⟩

end ElementaryGate

namespace Program

variable {p : Program ℝ} {name : String}

/-- The circuit of a placed program under a name: an instruction for each gate. -/
def circuit {R : Type} (p : Program R) (name : String) : Circuit R :=
  ⟨name, p.width, (p.gates.map ElementaryGate.instruction).toArray, p.phase⟩

/-- A program has a circuit if and only if it is placed on its wires. -/
theorem toCircuit_eq_ok_iff {R : Type} [Scalar R] {p : Program R} {c : Circuit R} :
    p.toCircuit name = .ok c ↔ p.IsPlaced ∧ c = p.circuit name := by
  constructor
  · intro h
    have hplaced : p.IsPlaced := by
      rw [toCircuit] at h
      cases hgates : p.gates.foldlM ElementaryGate.addTo (Circuit.empty name p.width) with
      | error e =>
        rw [hgates] at h
        cases h
      | ok d => exact ElementaryGate.isPlaced_of_foldlM_addTo hgates
    rw [toCircuit_eq_ok hplaced] at h
    exact ⟨hplaced, (Except.ok.inj h).symm⟩
  · rintro ⟨hplaced, rfl⟩
    exact toCircuit_eq_ok hplaced name

/-- The instructions of gates that are placed have the operator of the gates. -/
lemma instructionsOperator_map_instruction {n : ℕ} {gates : List (ElementaryGate ℝ)} (h : ∀ g ∈ gates, g.IsPlaced n) :
    instructionsOperator n (gates.map ElementaryGate.instruction) = gatesOperator n gates := by
  induction gates with
  | nil => rfl
  | cons g gates ih =>
    rw [List.forall_mem_cons] at h
    rw [List.map_cons, instructionsOperator, ih h.2, ElementaryGate.operator_instruction h.1, gatesOperator_cons]

/-- The operator that is found for the circuit of a program is that of the program. -/
theorem operator_circuit (hplaced : p.IsPlaced) (hwidth : p.width ≤ maxDenseQubits) (name : String) :
    ∃ U : Dense (Amplitude ℝ) (2 ^ p.width) (2 ^ p.width), (p.circuit name).operator = .ok U ∧ U.toMatrix = p.operator := by
  have hinstructions : ∀ op ∈ (p.circuit name).instructions, op.IsPlaced p.width := by
    intro op hop
    obtain ⟨g, hg, rfl⟩ := List.mem_map.1 (List.mem_toArray.1 hop)
    exact (hplaced g hg).instruction
  obtain ⟨U, hU, hmatrix⟩ := Circuit.operatorOn_eq_ok (n := p.width) hinstructions rfl hwidth
  refine ⟨U, (Circuit.operatorOn_width _).symm.trans hU, ?_⟩
  rw [hmatrix, Circuit.matrix, circuit, operator_eq_phasedOperator, phasedOperator_mk,
    instructionsOperator_map_instruction hplaced]

end Program

end CircuitSynthesis
