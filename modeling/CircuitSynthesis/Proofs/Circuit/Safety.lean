import Mathlib
import CircuitSynthesis.Proofs.Statevector.Checked

/-!
# What builder calls cannot break

No sequence of builder calls, failed ones included, makes a circuit that the scheduler or the simulator could trip over
(`reached_safe`).
-/

namespace CircuitSynthesis.Building

variable {R : Type} [Scalar R] {c : Circuit R}

/-- Every instruction of a circuit that builder calls lead to is placed on its wires, and its matrix has all entries. A
further instruction is added at the end if it is placed as well, and otherwise leaves the circuit as it is, as do a circuit
of another width and a matrix on a missing wire. The schedule of the circuit never asks for a wire or a layer that is not
there, and its action on a state of its width neither fails nor asks for a missing amplitude. -/
theorem reached_safe (h : c.Reached) :
    (∀ op ∈ c.instructions, op.IsPlaced c.width ∧ ∀ g, op.gate = .matrix g → g.entries.size = 4 ^ g.arity) ∧
    (∀ op : Instruction R, ((push op).outcome c = .ok () ↔ op.IsPlaced c.width) ∧
      ((push op).outcome c = .ok () → (push op).left c = { c with instructions := c.instructions.push op }) ∧
      ∀ e, (push op).outcome c = .error e → (push op).left c = c) ∧
    (∀ (d : Circuit R) e, (append d).outcome c = .error e → (append d).left c = c) ∧
    (∀ entries wire e, (unitary entries wire).outcome c = .error e → (unitary entries wire).left c = c) ∧
    c.layers? = some c.layers ∧
    ∀ s : Statevector R c.width, s.applyCircuit c = .ok (s.run c) ∧ s.applyCircuit? c = some (s.applyCircuit c) := by
  have hbuilt := h.built
  have hok : ∀ s : Statevector R c.width, s.applyCircuit c = .ok (s.run c) := fun s => if_pos rfl
  refine ⟨fun op hop => ⟨hbuilt.isPlaced op hop, ?_⟩, fun op => ?_, fun d e => (append_does d c).left_of_error,
    fun entries wire e => (unitary_does entries wire c).left_of_error, Circuit.layers?_eq hbuilt.isPlaced, fun s => ⟨hok s, ?_⟩⟩
  · rintro g hgate
    have hmade := hbuilt.made op hop
    rw [hgate] at hmade
    exact hmade.size_entries
  · have hdoes := push_does op c
    have hplaced : (push op).outcome c = .ok () ↔ op.IsPlaced c.width ∧
        (push op).left c = { c with instructions := c.instructions.push op } := by
      rw [hdoes.outcome_eq_ok_iff, Circuit.push_eq_ok_iff]
    refine ⟨⟨fun hok => (hplaced.1 hok).1, fun hop => ?_⟩, fun hok => (hplaced.1 hok).2, fun e => hdoes.left_of_error⟩
    have hpush : c.push op = .ok { c with instructions := c.instructions.push op } := Circuit.push_eq_ok_iff.2 ⟨hop, rfl⟩
    rw [hpush] at hdoes
    exact hdoes.1
  · rw [hok]
    exact Statevector.applyCircuit?_eq hbuilt s

section Example

/-- A controlled-NOT whose control is its target is refused, and then a Hadamard gate is added. -/
noncomputable def afterRefusal : Circuit ℝ :=
  (gate (.standard .h) [1]).left ((gate (.standard .cx) [0, 0]).left (.empty "pair" 2))

/-- A circuit that has refused an instruction is scheduled and simulated, and refuses the next one unchanged. -/
theorem reached_safe_afterRefusal :
    afterRefusal.instructions = #[⟨.standard .h, [1]⟩] ∧ afterRefusal.layers? = some [[0]] ∧
    (∀ s : Statevector ℝ 2, s.applyCircuit? afterRefusal = some (.ok (s.run afterRefusal))) ∧
    (push ⟨.standard .cx, [0, 0]⟩).left afterRefusal = afterRefusal := by
  have hreached : afterRefusal.Reached := ((Circuit.Reached.empty "pair" 2).gate [0, 0] (.standard .cx)).gate [1] (.standard .h)
  obtain ⟨-, hpush, -, -, hlayers, hrun⟩ := reached_safe hreached
  have heq : afterRefusal = ⟨"pair", 2, #[⟨.standard .h, [1]⟩], 0⟩ := rfl
  have hrows : afterRefusal.layers = [[0]] := by
    simp [heq, Circuit.layers, Circuit.schedule, Circuit.Schedule.place, Circuit.Schedule.levelOf]
  refine ⟨rfl, hrows ▸ hlayers, fun s => (hrun s).1 ▸ (hrun s).2, ?_⟩
  exact (hpush _).2.2 (.repeatedWire "cx" 0) rfl

end Example

end CircuitSynthesis.Building
