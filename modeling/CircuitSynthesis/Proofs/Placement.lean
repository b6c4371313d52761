import Mathlib
import CircuitSynthesis.Compiler
import CircuitSynthesis.Proofs.Circuit.Building
import CircuitSynthesis.Proofs.TwoQubit.Written

/-!
# Programs whose gates are placed on their wires

A gate is placed on a number of wires if it touches distinct ones below that number. This survives inverting and lowering
a program, and it is all that the circuit builder asks for: by `toCircuit_eq_ok` the circuit of a placed program is built
and holds one instruction per gate. Whatever the arithmetic returns, fusing keeps gates placed, and so the gates of an
operator on two qubits are placed on two wires.
-/

namespace CircuitSynthesis

variable {R : Type}

namespace ElementaryGate

/-- Whether a gate touches distinct wires, all of them below `n`. -/
structure IsPlaced (g : ElementaryGate R) (n : ℕ) : Prop where
  nodup : g.wires.Nodup
  range : ∀ q ∈ g.wires, q < n

variable {g : ElementaryGate R} {n m wire control target : ℕ} {u : Matrix2 R} {axis : Axis} {angle : R}

/-- A matrix is placed if its wire is. -/
@[simp] lemma isPlaced_unitary : (unitary wire u).IsPlaced n ↔ wire < n :=
  ⟨fun h => h.range wire List.mem_cons_self, fun h => ⟨List.nodup_singleton _, by simpa [wires] using h⟩⟩

/-- A rotation is placed if its wire is. -/
@[simp] lemma isPlaced_rotation : (rotation wire axis angle).IsPlaced n ↔ wire < n :=
  ⟨fun h => h.range wire List.mem_cons_self, fun h => ⟨List.nodup_singleton _, by simpa [wires] using h⟩⟩

/-- A controlled-NOT is placed if its two wires are, and differ. -/
@[simp] lemma isPlaced_entangler :
    (entangler control target : ElementaryGate R).IsPlaced n ↔ control ≠ target ∧ control < n ∧ target < n := by
  constructor
  · rintro ⟨hnodup, hrange⟩
    exact ⟨by simpa [wires] using hnodup, hrange control (by simp [wires]), hrange target (by simp [wires])⟩
  · rintro ⟨hne, hcontrol, htarget⟩
    exact ⟨by simpa [wires] using hne, by simp [wires, hcontrol, htarget]⟩

/-- A gate that is placed stays so on more wires. -/
lemma IsPlaced.mono (h : g.IsPlaced n) (hnm : n ≤ m) : g.IsPlaced m :=
  ⟨h.nodup, fun q hq => (h.range q hq).trans_le hnm⟩

/-- The gate of a circuit that an operation becomes. -/
def gate : ElementaryGate R → Gate R
  | unitary _ matrix => .matrix ⟨"unitary", 1, matrix.entries.toArray⟩
  | rotation _ .y angle => .standard (.ry angle)
  | rotation _ .z angle => .standard (.rz angle)
  | entangler _ _ => .standard .cx

/-- The instruction that an operation becomes. -/
def instruction (g : ElementaryGate R) : Instruction R := ⟨g.gate, g.wires⟩

/-- Adding a gate to a circuit pushes its instruction. -/
lemma addTo_eq_push (g : ElementaryGate R) (c : Circuit R) : g.addTo c = c.push g.instruction := by
  cases g with
  | unitary wire matrix => rfl
  | rotation wire axis angle => cases axis <;> rfl
  | entangler control target => rfl

/-- A gate has as many wires as operands. -/
lemma length_wires (g : ElementaryGate R) : g.wires.length = g.gate.arity := by
  cases g with
  | unitary wire matrix => rfl
  | rotation wire axis angle => cases axis <;> rfl
  | entangler control target => rfl

/-- The controlled-NOTs become the instructions on more than one wire. -/
lemma isMultiQubit_instruction (g : ElementaryGate R) : g.instruction.isMultiQubit = g.isEntangler := by
  cases g <;> rfl

/-- The instruction of a gate that is placed is placed. -/
lemma IsPlaced.instruction (h : g.IsPlaced n) : g.instruction.IsPlaced n := ⟨g.length_wires, h.nodup, h.range⟩

/-- Placed gates are accepted by a circuit one after the other. -/
lemma foldlM_addTo {gates : List (ElementaryGate R)} (c : Circuit R) (h : ∀ g ∈ gates, g.IsPlaced c.width) :
    gates.foldlM addTo c = .ok { c with instructions := c.instructions ++ (gates.map instruction).toArray } := by
  induction gates generalizing c with
  | nil => simp; rfl
  | cons g gates ih =>
    rw [List.forall_mem_cons] at h
    have hpush : g.addTo c = .ok { c with instructions := c.instructions.push g.instruction } := by
      rw [addTo_eq_push]
      exact Circuit.push_eq_ok_iff.2 ⟨h.1.instruction, rfl⟩
    rw [List.foldlM_cons, hpush]
    refine (ih { c with instructions := c.instructions.push g.instruction } h.2).trans ?_
    simp

/-- The inverse of a gate is placed where the gate is. -/
lemma IsPlaced.inverse [Scalar R] (h : g.IsPlaced n) : g.inverse.IsPlaced n := by
  cases g with
  | unitary => exact ⟨h.nodup, h.range⟩
  | rotation => exact ⟨h.nodup, h.range⟩
  | entangler => exact h

end ElementaryGate

namespace Program

variable {p : Program R} {n : ℕ} {gates : List (ElementaryGate R)}

/-- Whether all gates of a program are placed on its wires. -/
def IsPlaced (p : Program R) : Prop := ∀ g ∈ p.gates, g.IsPlaced p.width

/-- A circuit counts as many instructions on several wires as its program has controlled-NOTs. -/
lemma multiQubitCount_instructions (p : Program R) (name : String) :
    Circuit.multiQubitCount ⟨name, p.width, (p.gates.map ElementaryGate.instruction).toArray, p.phase⟩ =
      p.entanglerCount := by
  have hcomp : Instruction.isMultiQubit ∘ ElementaryGate.instruction (R := R) = ElementaryGate.isEntangler :=
    funext ElementaryGate.isMultiQubit_instruction
  rw [Circuit.multiQubitCount, entanglerCount, List.countP_eq_length_filter]
  dsimp only
  rw [List.filter_toArray, List.filter_map, hcomp]
  simp

variable [Scalar R]

/-- The inverse of a program is placed where the program is. -/
lemma IsPlaced.inverse (h : p.IsPlaced) : p.inverse.IsPlaced := by
  intro g hg
  obtain ⟨g', hg', rfl⟩ := List.mem_map.1 hg
  exact (h g' (List.mem_reverse.1 hg')).inverse

/-- A wrapped rotation stays on its wire. -/
lemma isPlaced_wrappedRotation {wire : ℕ} (hwire : wire < n) (axis : Axis) (angle : R) :
    ∀ g ∈ (wrappedRotation wire axis angle).1, g.IsPlaced n := by
  intro g hg
  rw [wrappedRotation] at hg
  dsimp only at hg
  split at hg
  case isTrue => rwa [List.mem_singleton.1 hg, ElementaryGate.isPlaced_rotation]
  case isFalse => cases hg

/-- Lowering a gate stays on its wires. -/
lemma isPlaced_lowerGate {g : ElementaryGate R} (h : g.IsPlaced n) (phase : R) :
    ∀ g' ∈ (lowerGate phase g).1, g'.IsPlaced n := by
  cases g with
  | unitary wire u =>
    rw [lowerGate]
    split
    case isTrue => simp
    case isFalse =>
      have hwire := ElementaryGate.isPlaced_unitary.1 h
      intro g' hg'
      rcases List.mem_append.1 hg' with hg' | hthird
      · rcases List.mem_append.1 hg' with hfirst | hsecond
        · exact isPlaced_wrappedRotation hwire _ _ _ hfirst
        · exact isPlaced_wrappedRotation hwire _ _ _ hsecond
      · exact isPlaced_wrappedRotation hwire _ _ _ hthird
  | rotation => exact fun g' hg' => List.mem_singleton.1 hg' ▸ h
  | entangler => exact fun g' hg' => List.mem_singleton.1 hg' ▸ h

/-- Lowering gates stays on their wires. -/
lemma isPlaced_lowerGates (h : ∀ g ∈ gates, g.IsPlaced n) (phase : R) :
    ∀ g ∈ (lowerGates phase gates).1, g.IsPlaced n := by
  induction gates generalizing phase with
  | nil => exact h
  | cons g gates ih =>
    rw [List.forall_mem_cons] at h
    intro g' hg'
    rcases List.mem_append.1 hg' with hlowered | htail
    · exact isPlaced_lowerGate h.1 phase g' hlowered
    · exact ih h.2 _ g' htail

/-- The lowered program is placed where the program is. -/
lemma IsPlaced.lower (h : p.IsPlaced) : p.lower.IsPlaced := isPlaced_lowerGates h p.phase

/-- The circuit of a placed program has an instruction for each gate, and the width and the phase of the program. -/
theorem toCircuit_eq_ok (h : p.IsPlaced) (name : String) :
    p.toCircuit name = .ok ⟨name, p.width, (p.gates.map ElementaryGate.instruction).toArray, p.phase⟩ := by
  rw [toCircuit, ElementaryGate.foldlM_addTo (Circuit.empty name p.width) h]
  simp [Circuit.empty, Circuit.setPhase]

end Program

namespace TwoQubit

variable [Scalar R] {n : ℕ}

namespace Fusion

variable {f : Fusion R}

/-- Whether all gates written so far are placed on `n` wires. -/
def IsPlaced (f : Fusion R) (n : ℕ) : Prop := ∀ g ∈ f.written, g.IsPlaced n

/-- Writing a pending matrix keeps the gates placed, since it goes to one of the first two wires. -/
lemma IsPlaced.flush (h : f.IsPlaced n) (hn : 2 ≤ n) (wire : ℕ) : (f.flush wire).IsPlaced n := by
  rcases written_flush f wire with hsame | ⟨hwire, u, -, hwritten⟩
  · rwa [IsPlaced, hsame]
  · rw [IsPlaced, hwritten]
    exact List.forall_mem_cons.2 ⟨ElementaryGate.isPlaced_unitary.2 (hwire.trans_le hn), h⟩

/-- Writing the pending matrices of several wires keeps the gates placed. -/
lemma IsPlaced.foldl_flush (h : f.IsPlaced n) (hn : 2 ≤ n) (wires : List ℕ) : (wires.foldl Fusion.flush f).IsPlaced n := by
  induction wires generalizing f with
  | nil => exact h
  | cons wire wires ih => exact ih (h.flush hn wire)

/-- A gate is written after what waited on its wires, or waits itself. -/
lemma IsPlaced.add (h : f.IsPlaced n) (hn : 2 ≤ n) {g : ElementaryGate R} (hg : g.IsPlaced n) : (f.add g).IsPlaced n := by
  rcases written_add f g with ⟨-, hsame⟩ | hwritten
  · rwa [IsPlaced, hsame]
  · rw [IsPlaced, hwritten]
    exact List.forall_mem_cons.2 ⟨hg, h.foldl_flush hn g.wires⟩

/-- Taking in placed gates keeps what is written placed. -/
lemma IsPlaced.foldl_add (h : f.IsPlaced n) (hn : 2 ≤ n) {gates : List (ElementaryGate R)}
    (hgates : ∀ g ∈ gates, g.IsPlaced n) : (gates.foldl Fusion.add f).IsPlaced n := by
  induction gates generalizing f with
  | nil => exact h
  | cons g gates ih =>
    rw [List.forall_mem_cons] at hgates
    exact ih (h.add hn hgates.1) hgates.2

end Fusion

/-- Fused gates are placed where the gates are. -/
lemma isPlaced_fuse (hn : 2 ≤ n) {gates : List (ElementaryGate R)} (h : ∀ g ∈ gates, g.IsPlaced n) (phase : R) :
    ∀ g ∈ (fuse gates phase).1, g.IsPlaced n := by
  have hstart : Fusion.IsPlaced ⟨none, none, [], phase⟩ n := by
    intro g hg
    cases hg
  intro g hg
  exact ((hstart.foldl_add hn h).flush hn 1).flush hn 0 g (List.mem_reverse.1 hg)

/-- The gates of an operator on two qubits stay on the first two wires. -/
theorem Decomposition.isPlaced_gates (d : Decomposition R) (cutoff : R) : ∀ g ∈ (d.gates cutoff).1, g.IsPlaced 2 := by
  have hblock (coefficient : R) {block : List (ElementaryGate R)} (h : ∀ g ∈ block, g.IsPlaced 2) :
      ∀ g ∈ unlessSmall cutoff coefficient block, g.IsPlaced 2 := by
    rw [unlessSmall]
    split
    case isTrue => exact h
    case isFalse => simp
  have hzz (coefficient : R) : ∀ g ∈ zzBlock coefficient, g.IsPlaced 2 := by simp [zzBlock]
  have hboth (u : Matrix2 R) : ∀ g ∈ onBoth u, g.IsPlaced 2 := by simp [onBoth]
  refine isPlaced_fuse le_rfl ?_ _
  simp only [rawGates, List.forall_mem_append]
  refine ⟨⟨⟨⟨by simp, ?_⟩, ?_⟩, ?_⟩, by simp⟩
  · exact hblock _ (hzz _)
  · exact hblock _ (by simp only [List.forall_mem_append]; exact ⟨⟨hboth _, hzz _⟩, hboth _⟩)
  · exact hblock _ (by
      simp only [List.forall_mem_append]
      exact ⟨⟨⟨⟨hboth _, hboth _⟩, hzz _⟩, hboth _⟩, hboth _⟩)

end TwoQubit

end CircuitSynthesis
