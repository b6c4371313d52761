import Mathlib
import CircuitSynthesis.Proofs.Sessions

/-!
# Programs as circuits

`Compiler.Obtains` collects the programs that the sessions of a compiler return and those that inverting and lowering
make of them. All of them are placed on their wires, so that the circuit builder refuses none of their gates:
`toCircuit_spec` says that the circuit is built, and what it has in common with the program.
-/

namespace CircuitSynthesis

namespace Compiler

variable {R : Type} [Scalar R] {c : Compiler R} {p : Program R}

/-- The programs that come from a compiler. -/
inductive Obtains (c : Compiler R) : Program R → Prop
  | returned {calls : List (Call R)} {p : Program R} :
    .ok (.program p) ∈ (c.session .empty calls).1 → Obtains c p
  | inverse {p : Program R} : Obtains c p → Obtains c p.inverse
  | lower {p : Program R} : Obtains c p → Obtains c p.lower

/-- A program that a call returns is placed, and inverting and lowering keep it so. -/
theorem Obtains.isPlaced (h : c.Obtains p) : p.IsPlaced := by
  induction h with
  | @returned calls p hp =>
    obtain ⟨ws, hsession, -⟩ := c.session_follows SignTableCache.sound_empty calls
    rw [hsession] at hp
    obtain ⟨call, -, hcall⟩ := List.mem_map.1 hp
    obtain ⟨-, -, hplaced, -⟩ := c.perform_follows call
    exact hplaced _ hcall
  | inverse _ ih => exact ih.inverse
  | lower _ ih => exact ih.lower

/-- The gates of a program that comes from a compiler touch wires of the program alone, and the control of a
controlled-NOT is never its target. Therefore the program has a circuit under every name. The circuit holds one
instruction for each gate in the same order, with as many on several wires as the program has controlled-NOTs, and it
has the phase and the width of the program. -/
theorem toCircuit_spec (h : c.Obtains p) :
    (∀ g ∈ p.gates, ∀ q ∈ g.wires, q < p.width) ∧
    (∀ control target, .entangler control target ∈ p.gates → control ≠ target) ∧
    ∀ name, ∃ circuit : Circuit R, p.toCircuit name = .ok circuit ∧
      circuit.instructions.toList = p.gates.map ElementaryGate.instruction ∧
      circuit.multiQubitCount = p.entanglerCount ∧
      circuit.phase = p.phase ∧ circuit.width = p.width ∧ circuit.name = name := by
  have hplaced := h.isPlaced
  refine ⟨fun g hg => (hplaced g hg).range, fun control target hg => ?_, fun name => ?_⟩
  · exact (ElementaryGate.isPlaced_entangler.1 (hplaced _ hg)).1
  · exact ⟨_, Program.toCircuit_eq_ok hplaced name, rfl, p.multiQubitCount_instructions name, rfl, rfl, rfl⟩

/-- The signs of `refusedThenSigned`, inverted and then lowered. -/
theorem toCircuit_spec_refusedThenSigned : ∃ p : Program ℝ, plain.Obtains p ∧ p.width = 2 ∧
    (∀ g ∈ p.gates, ∀ q ∈ g.wires, q < 2) ∧ ∃ circuit : Circuit ℝ, p.toCircuit "signs" = .ok circuit ∧
      circuit.instructions.toList = p.gates.map ElementaryGate.instruction ∧ circuit.width = 2 := by
  obtain ⟨gates, phase, hmem⟩ := mem_session_refusedThenSigned
  have hreturned : plain.Obtains ⟨2, gates, phase, .diagonal⟩ := .returned hmem
  obtain ⟨hrange, -, hcircuit⟩ := toCircuit_spec hreturned.inverse.lower
  obtain ⟨circuit, hok, hinstructions, -, -, hwidth, -⟩ := hcircuit "signs"
  exact ⟨_, hreturned.inverse.lower, rfl, hrange, circuit, hok, hinstructions, hwidth⟩

end Compiler

end CircuitSynthesis
