import Mathlib
import CircuitSynthesis.Proofs.Register.Operands
import CircuitSynthesis.Statevector.Kernels

/-!
# The loops of the simulator

The kernels update a state in place, block by block: the indices that agree outside the operands of a gate form a block,
and the loop does the work of a block when it comes to the index that stands for it. `get_foldl_blocks` says that no
step then reads what another step has written, so that every amplitude of the result is determined by the amplitudes of
its block in the first state. The other lemmas are this one for each of the loops.
-/

namespace CircuitSynthesis.Statevector

section Blocks

variable {α : Type} {N : ℕ}

/-- An invariant of a loop, indexed by the number of completed steps. -/
lemma foldl_invariant {β : Type} {f : β → Fin N → β} {P : ℕ → β → Prop} {b : β} (hzero : P 0 b)
    (hstep : ∀ (i : Fin N) (b : β), P i b → P (i + 1) (f b i)) : P N (Fin.foldl N f b) := by
  induction N with
  | zero => exact hzero
  | succ N ih =>
    rw [Fin.foldl_succ_last]
    exact hstep (Fin.last N) _ (ih fun i b h => hstep i.castSucc b h)

/-- A loop whose steps each update the block that their index stands for, and nothing else. -/
lemma get_foldl_blocks {step : Vector α N → Fin N → Vector α N} {s : Vector α N} (base : Fin N → Fin N)
    (target : Fin N → α) (houtside : ∀ v i k, base k ≠ i → (step v i).get k = v.get k)
    (hblock : ∀ v i, (∀ k, base k = i → v.get k = s.get k) → ∀ k, base k = i → (step v i).get k = target k) (k : Fin N) :
    (Fin.foldl N step s).get k = target k := by
  have hrun : ∀ k : Fin N, (Fin.foldl N step s).get k = if (base k).val < N then target k else s.get k := by
    -- after `m` steps the blocks of the indices below `m` are done, and all others are as they were
    refine foldl_invariant
      (P := fun m (v : Vector α N) => ∀ k : Fin N, v.get k = if (base k).val < m then target k else s.get k)
      (fun k => (if_neg (Nat.not_lt_zero _)).symm) fun i v hv k => ?_
    by_cases hk : base k = i
    · rw [if_pos (by omega)]
      refine hblock v i (fun k' hk' => ?_) k hk
      rw [hv, if_neg (by omega)]
    · have hne : (base k).val ≠ i.val := fun h => hk (Fin.ext h)
      have hlt : (base k).val < i.val + 1 ↔ (base k).val < i.val := by omega
      rw [houtside v i k hk, hv]
      simp only [hlt]
  rw [hrun, if_pos (base k).isLt]

end Blocks

section Scatter

variable {α ι : Type} {N : ℕ} {place : ι → ℕ} {value : ι → α}

/-- A scatter leaves every place alone that it does not write to. -/
lemma get_scatter_of_ne {rows : List ι} (v : Vector α N) (k : Fin N) (h : ∀ r ∈ rows, place r ≠ k) :
    (rows.foldl (fun v r => v.setIfInBounds (place r) (value r)) v).get k = v.get k := by
  induction rows generalizing v with
  | nil => rfl
  | cons r rows ih =>
    rw [List.forall_mem_cons] at h
    rw [List.foldl_cons, ih _ h.2]
    exact Vector.getElem_setIfInBounds_ne _ h.1

/-- Values scattered to places are found there, if no two are scattered to one place. -/
lemma get_scatter {rows : List ι} {r : ι} (hr : r ∈ rows) (v : Vector α N) (k : Fin N) (hk : place r = k)
    (hunique : ∀ r' ∈ rows, place r' = k → r' = r) :
    (rows.foldl (fun v r => v.setIfInBounds (place r) (value r)) v).get k = value r := by
  induction rows generalizing v with
  | nil => exact absurd hr List.not_mem_nil
  | cons r' rows ih =>
    rw [List.forall_mem_cons] at hunique
    rw [List.foldl_cons]
    by_cases hlater : r ∈ rows
    · exact ih hlater _ hunique.2
    · obtain rfl : r = r' := (List.mem_cons.1 hr).resolve_right hlater
      rw [get_scatter_of_ne _ k fun r' hr' hplace => hlater (hunique.2 r' hr' hplace ▸ hr')]
      rw [Vector.get_eq_getElem, Vector.getElem_setIfInBounds, if_pos hk]

end Scatter

section Loops

variable {R : Type} [Scalar R] {n q : ℕ}

/-- Reading within a vector needs no default. -/
lemma getD_eq_get {α : Type} {N : ℕ} (v : Vector α N) (k : Fin N) (d : α) : v.getD k d = v.get k := by
  simp [Vector.getD, Vector.get_eq_getElem]

/-- Two writes in a row, read at a place. -/
lemma get_set_setIfInBounds {α : Type} {N : ℕ} (v : Vector α N) (i j k : Fin N) (a b : α) :
    ((v.set i a i.isLt).setIfInBounds j b).get k = if j = k then b else if i = k then a else v.get k := by
  rw [Vector.get_eq_getElem, Vector.getElem_setIfInBounds, Vector.getElem_set]
  simp only [← Fin.ext_iff]
  rfl

/-- An exchange, read at a place. -/
lemma get_swapIfInBounds {α : Type} {N : ℕ} (v : Vector α N) (i j k : Fin N) :
    (v.swapIfInBounds i j).get k = if k = i then v.get j else if k = j then v.get i else v.get k := by
  obtain ⟨a, rfl⟩ := v
  have h := @Array.getElem_swapIfInBounds α a i j k (by simp)
  simp only [i.isLt, j.isLt, and_true, ← Fin.ext_iff] at h
  exact h

/-- A pair of indices is updated when the loop comes to the one without the bit. -/
lemma get_updatePairs (hq : q < n) (f : Amplitude R → Amplitude R → Amplitude R × Amplitude R) (s : Statevector R n)
    (k : Fin (2 ^ n)) : (s.updatePairs (wireMask q) f).get k =
      if k.val.testBit q then (f (s.get (setWireFin hq false k)) (s.get (setWireFin hq true k))).2
      else (f (s.get (setWireFin hq false k)) (s.get (setWireFin hq true k))).1 := by
  have hpartner (i : Fin (2 ^ n)) : i.val ||| wireMask q = setWireFin hq true i := or_wireMask i q
  have hmask (i : Fin (2 ^ n)) : i.val &&& wireMask q = 0 ↔ i.val.testBit q = false := and_wireMask_eq_zero_iff
  unfold updatePairs
  refine get_foldl_blocks (setWireFin hq false)
    (fun k => if k.val.testBit q then (f (s.get (setWireFin hq false k)) (s.get (setWireFin hq true k))).2
      else (f (s.get (setWireFin hq false k)) (s.get (setWireFin hq true k))).1)
    (fun v i k hk => ?_) (fun v i hv k hk => ?_) k
  · -- a step writes to its own index and to the partner, both of one block
    simp only [hpartner, hmask]
    split
    · next hi =>
      have hself : setWireFin hq false i = i := hi ▸ setWireFin_testBit_self hq i
      have hne : i ≠ k := fun h => hk (h ▸ hself)
      have hne' : setWireFin hq true i ≠ k := fun h => hk (by rw [← h, setWireFin_setWireFin, hself])
      rw [get_set_setIfInBounds, if_neg hne', if_neg hne]
    · rfl
  · subst hk
    have hlow := setWireFin_setWireFin hq true false k
    have hget (i : Fin (2 ^ n)) : v[i] = v.get i := rfl
    simp only [hget, hpartner, hmask, testBit_setWireFin, if_true, hlow, get_set_setIfInBounds, getD_eq_get]
    rw [hv _ (setWireFin_setWireFin hq false false k), hv _ (setWireFin_setWireFin hq false true k)]
    cases hbit : k.val.testBit q with
    | true =>
      have hself : setWireFin hq true k = k := hbit ▸ setWireFin_testBit_self hq k
      rw [if_pos hself]
      rfl
    | false =>
      have hself : setWireFin hq false k = k := hbit ▸ setWireFin_testBit_self hq k
      have hne : setWireFin hq true k ≠ k := by
        intro h
        have hset := testBit_setWireFin hq true k q
        rw [h, hbit, if_pos rfl] at hset
        exact Bool.false_ne_true hset
      rw [if_neg hne, if_pos hself]
      rfl

omit [Scalar R] in
/-- Exchanging the chosen indices with their partners composes the state with the involution that does so. -/
lemma get_swapWith {chosen : ℕ → Bool} {partner : ℕ → ℕ} (σ : Fin (2 ^ n) → Fin (2 ^ n)) (hσ : ∀ k, σ (σ k) = k)
    (hchosen : ∀ k : Fin (2 ^ n), chosen k = true → (σ k).val = partner k ∧ chosen (σ k) = false)
    (hfixed : ∀ k : Fin (2 ^ n), chosen k = false → chosen (σ k) = false → σ k = k) (s : Statevector R n)
    (k : Fin (2 ^ n)) : (s.swapWith chosen partner).get k = s.get (σ k) := by
  unfold swapWith
  refine get_foldl_blocks (fun k => if chosen k then k else σ k) (fun k => s.get (σ k)) (fun v i k hk => ?_)
    (fun v i hv k hk => ?_) k
  · cases hi : chosen i with
    | false => rfl
    | true =>
      obtain ⟨hpartner, hother⟩ := hchosen i hi
      have hne : k ≠ i := by
        rintro rfl
        exact hk (if_pos hi)
      have hne' : k ≠ σ i := by
        rintro rfl
        rw [hother, if_neg Bool.false_ne_true] at hk
        exact hk (hσ i)
      rw [if_pos rfl, ← hpartner, get_swapIfInBounds, if_neg hne, if_neg hne']
  · cases hbit : chosen k with
    | true =>
      -- the exchange is made at the index itself
      rw [hbit, if_pos rfl] at hk
      subst hk
      obtain ⟨hpartner, hother⟩ := hchosen k hbit
      rw [if_pos hbit, ← hpartner, get_swapIfInBounds, if_pos rfl]
      exact hv _ (by rw [hother, if_neg Bool.false_ne_true, hσ])
    | false =>
      rw [hbit, if_neg Bool.false_ne_true] at hk
      subst hk
      cases hother : chosen (σ k) with
      | true =>
        -- the exchange is made at its partner
        obtain ⟨hpartner, -⟩ := hchosen _ hother
        have hne : k ≠ σ k := by
          intro h
          rw [← h, hbit] at hother
          exact Bool.false_ne_true hother
        rw [if_pos rfl, ← hpartner, hσ, get_swapIfInBounds, if_neg hne, if_pos rfl]
        exact hv _ (by rw [hother, if_pos rfl])
      | false =>
        -- no exchange reaches the index, and the involution leaves it where it is
        have hself := hfixed k hbit hother
        have hread := hv (σ k) (by rw [hother, if_neg Bool.false_ne_true, hσ, hself])
        simp only [hself] at hread ⊢
        exact hread

omit [Scalar R] in
/-- A pass over single amplitudes, read at a place. -/
lemma get_updateEach (f : ℕ → Amplitude R → Amplitude R) (s : Statevector R n) (k : Fin (2 ^ n)) :
    (s.updateEach f).get k = f k (s.get k) :=
  Vector.getElem_mapIdx k.isLt

/-- The Hadamard kernel is a pass over pairs. -/
lemma applyH_eq (s : Statevector R n) : s.applyH q = s.updatePairs (wireMask q) fun a b =>
    ((1 / Scalar.sqrt Scalar.two : R) • (a + b), (1 / Scalar.sqrt Scalar.two : R) • (a - b)) := rfl

/-- The kernel of a rotation about the first axis is a pass over pairs. -/
lemma applyRx_eq (angle : R) (s : Statevector R n) : s.applyRx q angle = s.updatePairs (wireMask q) fun a b =>
    (Scalar.cos (angle / Scalar.two) • a + ⟨0, -Scalar.sin (angle / Scalar.two)⟩ * b,
      ⟨0, -Scalar.sin (angle / Scalar.two)⟩ * a + Scalar.cos (angle / Scalar.two) • b) := rfl

/-- The kernel of a rotation about the second axis is a pass over pairs. -/
lemma applyRy_eq (angle : R) (s : Statevector R n) : s.applyRy q angle = s.updatePairs (wireMask q) fun a b =>
    (Scalar.cos (angle / Scalar.two) • a - Scalar.sin (angle / Scalar.two) • b,
      Scalar.sin (angle / Scalar.two) • a + Scalar.cos (angle / Scalar.two) • b) := rfl

end Loops

section Matrices

variable {R : Type} [Scalar R] {n : ℕ} {wires : List ℕ}

/-- A list with its indices is the list of the places. -/
lemma zipIdx_map_range {β γ : Type} (g : ℕ → β) (h : β × ℕ → γ) (m : ℕ) :
    ((List.range m).map g).zipIdx.map h = (List.range m).map fun c => h (g c, c) := by
  apply List.ext_getElem
  · simp
  · intro c hc hc'
    simp

/-- The value that a matrix puts at one row of a block. -/
def rowValue (wires : List ℕ) (entries : Array (Amplitude R)) (read : ℕ → Amplitude R) (row : ℕ) : Amplitude R :=
  Scalar.sum ((List.range (2 ^ wires.length)).map fun c => entries.getD (row * 2 ^ wires.length + c) 0 * read c)

/-- A loop step of a matrix gate: where the operands read zero, the values of the block are gathered, multiplied and
scattered. -/
lemma applyMatrix_eq (hnodup : wires.Nodup) (entries : Array (Amplitude R)) (s : Statevector R n) :
    s.applyMatrix wires entries = Fin.foldl (2 ^ n) (fun v base =>
      if setOperands wires 0 base = base.val then
        (List.range (2 ^ wires.length)).foldl (fun v' row => v'.setIfInBounds (setOperands wires row base)
          (rowValue wires entries (fun c => v.getD (setOperands wires c base) 0) row)) v
      else v) s := by
  unfold applyMatrix
  dsimp only
  refine congrArg (fun step => Fin.foldl (2 ^ n) step s) (funext fun v => funext fun base => ?_)
  refine if_ctx_congr (and_operandMask_eq_zero_iff hnodup) (fun hbase => ?_) fun _ => rfl
  have hoffset (x : ℕ) : base.val ||| operandOffset wires x = setOperands wires x base :=
    or_operandOffset hnodup fun p hp => by rw [← hbase, testBit_setOperands_zero hp]
  have hzip := zipIdx_map_range (operandOffset wires) id (2 ^ wires.length)
  rw [List.map_id] at hzip
  simp only [hzip, List.foldl_map, List.map_map, Function.comp_def, hoffset, zipIdx_map_range, id_eq]
  rfl

/-- A matrix gate multiplies each block by the matrix. -/
lemma get_applyMatrix (hnodup : wires.Nodup) (hrange : ∀ q ∈ wires, q < n) (entries : Array (Amplitude R))
    (s : Statevector R n) (k : Fin (2 ^ n)) : (s.applyMatrix wires entries).get k =
      rowValue wires entries (fun c => s.getD (setOperands wires c k) 0) (operandIndex wires k) := by
  rw [applyMatrix_eq hnodup]
  refine get_foldl_blocks (setOperandsFin hrange 0)
    (fun k => rowValue wires entries (fun c => s.getD (setOperands wires c k) 0) (operandIndex wires k))
    (fun v i k hk => ?_) (fun v i hv k hk => ?_) k
  · split
    · next hi =>
      refine get_scatter_of_ne v k fun row _ hplace => hk (Fin.ext ?_)
      rw [val_setOperandsFin, ← hplace, setOperands_setOperands, hi]
    · rfl
  · -- every amplitude of the block is gathered before the first is written
    subst hk
    have hread (c : ℕ) : v.getD (setOperands wires c k) 0 = s.getD (setOperands wires c k) 0 := by
      have hblock := hv (setOperandsFin hrange c k) (setOperandsFin_setOperandsFin hrange 0 c k)
      rwa [← getD_eq_get v _ 0, ← getD_eq_get s _ 0] at hblock
    simp only [val_setOperandsFin, setOperands_setOperands, if_true, hread]
    refine get_scatter (List.mem_range.2 (operandIndex_lt wires k)) v k ?_ fun row hrow hplace => ?_
    · exact setOperands_operandIndex wires k
    · rw [← hplace, operandIndex_setOperands hnodup (List.mem_range.1 hrow)]

end Matrices

end CircuitSynthesis.Statevector
