import CircuitSynthesis.Circuit.Basic

/-!
# Layers with every index checked

The schedule of `Circuit.layers` once more, except that a wire or a layer that does not exist ends the computation.

The indices are those of `Circuit`'s `layers` in `qsynth-ir`.
-/

namespace CircuitSynthesis.Circuit

variable {R : Type}

/-- The first layer after every use of the given wires, unless one of them does not exist. -/
def Schedule.levelOf? (s : Schedule) (wires : List Nat) : Option Nat :=
  wires.foldlM (fun level q => do return max level (← s.used[q]?)) 0

/-- Puts the instruction of an index into its layer, unless a wire or the layer does not exist. -/
def Schedule.place? (s : Schedule) (index : Nat) (wires : List Nat) : Option Schedule := do
  let level ← s.levelOf? wires
  let layers := if level = s.layers.size then s.layers.push #[] else s.layers
  guard (level < layers.size)
  let used ← wires.foldlM (fun used q => do guard (q < used.size); return used.setIfInBounds q (level + 1)) s.used
  return ⟨used, layers.modify level (·.push index)⟩

/-- The indices of the instructions, layer by layer, unless an index is out of range on the way. -/
def layers? (c : Circuit R) : Option (List (List Nat)) := do
  let start : Schedule := ⟨Array.replicate c.width 0, #[]⟩
  let s ← c.instructions.toList.zipIdx.foldlM (fun s (op, index) => s.place? index op.wires) start
  return (s.layers.map Array.toList).toList

end CircuitSynthesis.Circuit
