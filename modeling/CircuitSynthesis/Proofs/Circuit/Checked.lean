import Mathlib
import CircuitSynthesis.Circuit.Checked
import CircuitSynthesis.Proofs.Circuit.Layers
import CircuitSynthesis.Proofs.Loops

/-!
# No layer or wire is missing

Scheduling a circuit whose instructions are placed on its wires never meets an index out of range: the computation that
checks every index gives the layers (`layers?_eq`). What makes a layer exist is that no wire is used past the last one, a
part of `Schedule.Sound`.
-/

namespace CircuitSynthesis

namespace Circuit

namespace Schedule

variable {s : Schedule} {wiresOf : ℕ → List ℕ} {count : ℕ} {wires : List ℕ}

/-- On wires of the schedule the checked level is the level. -/
lemma levelOf?_eq (hrange : ∀ q ∈ wires, q < s.used.size) : s.levelOf? wires = some (s.levelOf wires) := by
  refine foldlM_eq_some (P := fun _ => True) trivial fun level _ q hq => ⟨?_, trivial⟩
  simp [hrange q hq]

/-- There are as many rows as layers. -/
lemma length_rows (s : Schedule) : s.rows.length = s.layers.size := by simp [rows]

/-- Placing an instruction on wires of a sound schedule finds the wires and the layer. -/
lemma Sound.place?_eq (h : s.Sound wiresOf count) (hrange : ∀ q ∈ wires, q < s.used.size) (index : ℕ) :
    s.place? index wires = some (s.place index wires) := by
  have hlevel := h.levelOf_le wires
  rw [length_rows] at hlevel
  have hlayer : s.levelOf wires <
      (if s.levelOf wires = s.layers.size then s.layers.push #[] else s.layers).size := by
    split
    case isTrue heq => simp [heq]
    case isFalse hne => omega
  have hused : wires.foldlM (fun (used : Array ℕ) q => do
      guard (q < used.size); return used.setIfInBounds q (s.levelOf wires + 1)) s.used =
        some (wires.foldl (fun used q => used.setIfInBounds q (s.levelOf wires + 1)) s.used) := by
    refine foldlM_eq_some (P := fun used => used.size = s.used.size) rfl fun used hsize q hq => ⟨?_, by simpa using hsize⟩
    simp [guard, hsize, hrange q hq]
  rw [place?, levelOf?_eq hrange]
  simp only [Option.bind_eq_bind, Option.bind_some] at hused ⊢
  rw [hused, guard, if_pos hlayer]
  rfl

/-- Placing instructions one by one never meets an index out of range. -/
theorem Sound.foldlM_place? {R : Type} {ops : List (Instruction R)} (h : s.Sound wiresOf count)
    (hwires : ∀ i op, ops[i]? = some op → wiresOf (count + i) = op.wires)
    (hrange : ∀ op ∈ ops, ∀ q ∈ op.wires, q < s.used.size) :
    (ops.zipIdx count).foldlM (fun s (op, index) => s.place? index op.wires) s =
      some ((ops.zipIdx count).foldl (fun s (op, index) => s.place index op.wires) s) := by
  induction ops generalizing s count with
  | nil => rfl
  | cons op ops ih =>
    rw [List.forall_mem_cons] at hrange
    have hop : wiresOf count = op.wires := hwires 0 op rfl
    have hplace := h.place (hop ▸ hrange.1)
    rw [hop] at hplace
    have hfirst : s.place? count op.wires = some (s.place count op.wires) := h.place?_eq hrange.1 count
    rw [List.zipIdx_cons, List.foldlM_cons, List.foldl_cons]
    dsimp only
    rw [hfirst]
    refine ih hplace (fun i op' hi => ?_) ?_
    · rw [add_assoc, add_comm 1]
      exact hwires (i + 1) op' hi
    · rw [size_used_place]
      exact hrange.2

end Schedule

variable {R : Type} {c : Circuit R}

/-- Every wire and every layer that the schedule asks for is there if all operands are wires of the circuit. -/
theorem layers?_eq_of_range (h : ∀ op ∈ c.instructions, ∀ q ∈ op.wires, q < c.width) : c.layers? = some c.layers := by
  have hstart : (⟨Array.replicate c.width 0, #[]⟩ : Schedule).Sound c.wiresAt 0 := .empty c.width
  have hrange : ∀ op ∈ c.instructions.toList, ∀ q ∈ op.wires, q < (Array.replicate c.width 0).size := by
    simpa using h
  rw [layers?, layers, schedule]
  dsimp only
  rw [hstart.foldlM_place? (fun _ _ => wiresAt_of_getElem?) hrange]
  rfl

/-- Every wire and every layer that the schedule of a placed circuit asks for is there. -/
theorem layers?_eq (h : ∀ op ∈ c.instructions, op.IsPlaced c.width) : c.layers? = some c.layers :=
  layers?_eq_of_range fun op hop => (h op hop).range

end Circuit

end CircuitSynthesis
