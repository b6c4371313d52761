import Mathlib
import CircuitSynthesis.Statevector.Checked
import CircuitSynthesis.Proofs.Circuit.Checked
import CircuitSynthesis.Proofs.Circuit.Reached
import CircuitSynthesis.Proofs.Statevector.Kernels

/-!
# No amplitude is missing

Simulating an instruction that is placed on the wires of a state never meets an index out of range: the simulation that
checks every index gives the same state (`applyInstruction?_eq`). A mask of wires in range joined to an index in range stays in range,
and a matrix with all its entries has every row.
-/

namespace CircuitSynthesis.Statevector

variable {R : Type} [Scalar R] {n : ℕ}

/-- A loop over all indices that may stop runs through if its steps do. -/
lemma foldlM_range_eq {N : ℕ} {α : Type} {step : α → Fin N → α} {step? : α → ℕ → Option α}
    (h : ∀ a (i : Fin N), step? a i = some (step a i)) (a : α) :
    (List.range N).foldlM step? a = some (Fin.foldl N step a) := by
  rw [Fin.foldl_eq_foldl_finRange, ← List.map_coe_finRange_eq_range, List.foldlM_map]
  exact foldlM_eq_some (P := fun _ => True) trivial fun a _ i _ => ⟨h a i, trivial⟩

section Sweeps

omit [Scalar R] in
/-- Writing at an index of the register succeeds. -/
lemma write?_eq (s : Statevector R n) {i : ℕ} (hi : i < 2 ^ n) (a : Amplitude R) :
    write? s i a = some (s.setIfInBounds i a) := by
  rw [write?, dif_pos hi]
  congr 1
  ext k hk
  rw [Vector.getElem_set, Vector.getElem_setIfInBounds]

omit [Scalar R] in
/-- Writing at a basis index succeeds. -/
lemma write?_fin (s : Statevector R n) (i : Fin (2 ^ n)) (a : Amplitude R) : write? s i a = some (s.set i a i.isLt) :=
  dif_pos i.isLt

omit [Scalar R] in
/-- Reading at a basis index succeeds. -/
lemma getElem?_fin (s : Statevector R n) (i : Fin (2 ^ n)) : s[i.val]? = some (s.get i) := Vector.getElem?_eq_getElem i.isLt

omit [Scalar R] in
/-- Exchanging two basis indices succeeds. -/
lemma exchange?_eq (s : Statevector R n) (i j : Fin (2 ^ n)) : exchange? s i j = some (s.swapIfInBounds i j) := by
  have hswap : (s.set i (s.get j) i.isLt).setIfInBounds j (s.get i) = s.swapIfInBounds i j := by
    refine Vector.ext fun k hk => ?_
    have hleft := get_set_setIfInBounds s i j ⟨k, hk⟩ (s.get j) (s.get i)
    have hright := get_swapIfInBounds s i j ⟨k, hk⟩
    rw [Vector.get_eq_getElem] at hleft hright
    rw [hleft, hright]
    by_cases hi : i = ⟨k, hk⟩
    case pos => by_cases hj : j = i <;> simp [← hi, hj]
    case neg => simp [eq_comm, hi]
  rw [exchange?, getElem?_fin, getElem?_fin]
  simp only [Option.bind_eq_bind, Option.bind_some]
  rw [write?_fin, Option.bind_some, write?_eq _ j.isLt, hswap]

/-- Whether a pass keeps to the indices of a state of `n` wires. -/
def Sweep.KeepsTo (n : ℕ) : Sweep R → Prop
  | .pairs mask _ => mask < 2 ^ n
  | .swaps chosen partner => ∀ i < 2 ^ n, chosen i = true → partner i < 2 ^ n
  | .each _ => True

/-- A pass that keeps to the indices of a state meets no other. -/
lemma Sweep.KeepsTo.run?_eq {k : Sweep R} (h : k.KeepsTo n) (s : Statevector R n) : k.run? s = some (k.run s) := by
  cases k with
  | pairs mask f =>
    rw [run?, run, updatePairs]
    refine foldlM_range_eq (fun s i => ?_) s
    have hj : i.val ||| mask < 2 ^ n := Nat.or_lt_two_pow i.isLt h
    split
    case isFalse => rfl
    case isTrue =>
      have hpartner : s[i.val ||| mask]? = some (s.getD (i.val ||| mask) 0) := by
        rw [getElem?_fin s ⟨_, hj⟩, ← getD_eq_get s _ 0]
      rw [getElem?_fin, hpartner]
      simp only [Option.bind_eq_bind, Option.bind_some]
      rw [write?_fin, Option.bind_some, write?_eq _ hj]
      rfl
  | swaps chosen partner =>
    rw [run?, run, swapWith]
    refine foldlM_range_eq (fun s i => ?_) s
    split
    case isFalse => rfl
    case isTrue hi => exact exchange?_eq s i ⟨partner i, h i i.isLt hi⟩
  | each f => rfl

variable {q : ℕ}

/-- The mask of a wire of the register is an index of the register. -/
lemma wireMask_lt (hq : q < n) : wireMask q < 2 ^ n := by
  rw [wireMask_eq]
  exact Nat.pow_lt_pow_right Nat.one_lt_two hq

/-- A fixed gate with its operands in range is one pass that keeps to the indices of the state. -/
lemma exists_sweep {g : StandardGate R} {wires : List ℕ} (hlength : wires.length = g.arity) (hrange : ∀ q ∈ wires, q < n) :
    ∃ k, sweep? g wires = some k ∧ k.KeepsTo n ∧ ∀ s : Statevector R n, k.run s = s.applyStandard g wires := by
  rcases (by cases g <;> simp [StandardGate.arity] : g.arity = 1 ∨ g.arity = 2) with hone | htwo
  · obtain ⟨q, rfl⟩ := List.length_eq_one_iff.1 (hlength.trans hone)
    have hq := wireMask_lt (hrange q List.mem_cons_self)
    have hflip : (Sweep.swaps (R := R) (fun i => i &&& wireMask q = 0) (· ||| wireMask q)).KeepsTo n :=
      fun i hi _ => Nat.or_lt_two_pow hi hq
    cases g with
    | x => exact ⟨_, rfl, hflip, fun s => rfl⟩
    | y => exact ⟨_, rfl, hq, fun s => rfl⟩
    | z => exact ⟨_, rfl, trivial, fun s => rfl⟩
    | h => exact ⟨_, rfl, hq, fun s => rfl⟩
    | s => exact ⟨_, rfl, trivial, fun s => rfl⟩
    | sdg => exact ⟨_, rfl, trivial, fun s => rfl⟩
    | rx t => exact ⟨_, rfl, hq, fun s => rfl⟩
    | ry t => exact ⟨_, rfl, hq, fun s => rfl⟩
    | rz t => exact ⟨_, rfl, trivial, fun s => rfl⟩
    | cx => cases hone
    | cz => cases hone
    | swap => cases hone
  · obtain ⟨p, q, rfl⟩ := List.length_eq_two.1 (hlength.trans htwo)
    have hp := wireMask_lt (hrange p List.mem_cons_self)
    have hq := wireMask_lt (hrange q (List.mem_cons_of_mem p List.mem_cons_self))
    cases g with
    | cx => exact ⟨_, rfl, fun i hi _ => Nat.or_lt_two_pow hi hq, fun s => rfl⟩
    | cz => exact ⟨_, rfl, trivial, fun s => rfl⟩
    | swap => exact ⟨_, rfl, fun i hi _ => Nat.or_lt_two_pow (Nat.xor_lt_two_pow hi hp) hq, fun s => rfl⟩
    | _ => cases htwo

end Sweeps

section Matrices

variable {wires : List ℕ} {entries : Array (Amplitude R)}

/-- The offsets of operands in range are in range. -/
lemma operandOffset_lt (hnodup : wires.Nodup) (hrange : ∀ q ∈ wires, q < n) (x : ℕ) : operandOffset wires x < 2 ^ n := by
  refine Nat.lt_pow_two_of_testBit _ fun p hp => testBit_operandOffset_of_notMem hnodup fun hmem => ?_
  exact (hrange p hmem).not_ge hp

/-- A matrix with an entry for each pair of indices has every row. -/
lemma matrixRow?_eq {size r : ℕ} (hsize : entries.size = size * size) (hr : r < size) :
    matrixRow? entries size r = some ((List.range size).map fun k => entries.getD (r * size + k) 0) := by
  rw [matrixRow?, if_pos]
  rw [hsize]
  exact Nat.mul_le_mul_right size hr

/-- A row times the values that were gathered for it. -/
lemma zipWith_mul_map_range {α : Type} [Mul α] (m : ℕ) (row : ℕ → α) (g : ℕ → α) :
    List.zipWith (· * ·) ((List.range m).map row) ((List.range m).map g) = (List.range m).map fun k => row k * g k := by
  rw [List.zipWith_map, List.zipWith_self]

/-- The amplitudes of a block are all there to be gathered. -/
lemma mapM_gather (hnodup : wires.Nodup) (hrange : ∀ q ∈ wires, q < n) (s : Statevector R n) (base : Fin (2 ^ n)) (m : ℕ) :
    ((List.range m).map (operandOffset wires)).mapM (fun offset => s[base.val ||| offset]?) =
      some ((List.range m).map fun x => s.getD (base.val ||| operandOffset wires x) 0) := by
  rw [mapM_eq_some (f := fun offset => s.getD (base.val ||| offset) 0) fun offset hoffset => ?_, List.map_map]
  · rfl
  · obtain ⟨x, -, rfl⟩ := List.mem_map.1 hoffset
    have hplace := Nat.or_lt_two_pow base.isLt (operandOffset_lt hnodup hrange x)
    rw [getElem?_fin s ⟨_, hplace⟩, ← getD_eq_get s _ 0]

/-- A matrix gate whose operands are distinct and in range meets no index out of range. -/
lemma applyMatrix?_eq (hnodup : wires.Nodup) (hrange : ∀ q ∈ wires, q < n) (hsize : entries.size = 4 ^ wires.length)
    (s : Statevector R n) : s.applyMatrix? wires entries = some (s.applyMatrix wires entries) := by
  have hsquare : entries.size = 2 ^ wires.length * 2 ^ wires.length := hsize.trans (mul_pow 2 2 _)
  rw [applyMatrix?, applyMatrix]
  dsimp only
  refine foldlM_range_eq (fun s base => ?_) s
  split
  case isFalse => rfl
  case isTrue =>
    rw [mapM_gather hnodup hrange s base]
    simp only [Option.bind_eq_bind, Option.bind_some]
    refine foldlM_eq_some (P := fun _ => True) trivial ?_
    rintro v - ⟨offset, r⟩ hmem
    obtain ⟨hr, hoffset⟩ : r < 2 ^ wires.length ∧ offset = operandOffset wires r := by
      rw [List.mk_mem_zipIdx_iff_getElem?, List.getElem?_map] at hmem
      obtain ⟨x, hx, rfl⟩ := Option.map_eq_some_iff.1 hmem
      obtain ⟨hr, rfl⟩ := List.getElem?_eq_some_iff.1 hx
      rw [List.length_range] at hr
      exact ⟨hr, congrArg _ (List.getElem_range _)⟩
    subst hoffset
    rw [matrixRow?_eq hsquare hr]
    simp only [Option.bind_some]
    rw [write?_eq v (Nat.or_lt_two_pow base.isLt (operandOffset_lt hnodup hrange r)), zipWith_mul_map_range, List.map_map, zipIdx_map_range]
    exact ⟨rfl, trivial⟩

end Matrices

section Circuits

/-- A made gate that is placed on the wires of a state meets no index out of range. -/
theorem applyInstruction?_eq {op : Instruction R} (h : op.IsPlaced n) (hmade : op.gate.Made) (s : Statevector R n) :
    s.applyInstruction? op = some (s.apply op) := by
  obtain ⟨gate, wires⟩ := op
  cases gate with
  | standard g =>
    obtain ⟨k, hsweep, hkeeps, hrun⟩ := exists_sweep h.length h.range
    rw [applyInstruction?, apply]
    dsimp only
    rw [hsweep, ← hrun]
    exact hkeeps.run?_eq s
  | matrix g =>
    rw [applyInstruction?, apply]
    dsimp only
    exact applyMatrix?_eq h.nodup h.range (h.length ▸ hmade.size_entries) s

/-- A built circuit acts on every state of its width without meeting an index out of range. -/
theorem applyCircuit?_eq {c : Circuit R} (h : c.Built) (s : Statevector R c.width) :
    s.applyCircuit? c = some (.ok (s.run c)) := by
  have hrun : c.instructions.toList.foldlM (fun (s : Statevector R c.width) op => applyInstruction? op s) s =
      some (c.instructions.toList.foldl (fun s op => s.apply op) s) := by
    refine foldlM_eq_some (P := fun _ => True) trivial fun s _ op hop => ⟨?_, trivial⟩
    have hmem := Array.mem_toList_iff.1 hop
    exact applyInstruction?_eq (h.isPlaced op hmem) (h.made op hmem) s
  rw [applyCircuit?, if_pos rfl, run, ← Array.foldl_toList]
  dsimp only
  rw [hrun]
  simp only [Option.bind_eq_bind, Option.bind_some]
  split <;> rfl

end Circuits

end CircuitSynthesis.Statevector
