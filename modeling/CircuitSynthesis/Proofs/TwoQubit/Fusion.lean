import Mathlib
import CircuitSynthesis.Proofs.Register.Operator
import CircuitSynthesis.Proofs.TwoQubit.Written

/-!
# Fusing matrices

A state of the pass stands for an operator: the gates it has written, then the matrices that wait on the two wires, and
the phase. Taking a gate multiplies this operator by the operator of the gate (`operator_add`), since a matrix that
waits may move past everything that does not touch its wire. At the end nothing waits, so that the fused gates have the
operator of the list (`phasedOperator_fuse`), and every gate that never waited is still there, in its place
(`passing_fuse`).
-/

namespace CircuitSynthesis.TwoQubit

open Matrix
open Complex (I exp)

/-- Whether a gate waits in the pass: a matrix on wire zero or wire one. -/
def waits : ElementaryGate ℝ → Bool
  | .unitary 0 _ | .unitary 1 _ => true
  | _ => false

/-- A matrix waits on the first two wires. -/
@[simp] lemma waits_unitary (wire : ℕ) (u : Matrix2 ℝ) : waits (.unitary wire u) = decide (wire < 2) := by
  match wire with
  | 0 => rfl
  | 1 => rfl
  | wire + 2 => simp [waits]

/-- A rotation never waits. -/
@[simp] lemma waits_rotation (wire : ℕ) (axis : Axis) (t : ℝ) : waits (.rotation wire axis t) = false := by
  simp [waits]

/-- A controlled-NOT never waits. -/
@[simp] lemma waits_entangler (control target : ℕ) : waits (.entangler control target) = false := by
  simp [waits]

namespace Fusion

/-- What waits on a wire. -/
def slot (f : Fusion ℝ) : ℕ → Option (Matrix2 ℝ)
  | 0 => f.low
  | 1 => f.high
  | _ => none

/-- The matrices that turn into phase when a wire is flushed. -/
noncomputable def droppedAt (f : Fusion ℝ) (wire : ℕ) : List (Matrix2 ℝ) := (f.slot wire).toList.filter Matrix2.isScalar

/-- The matrices that turn into phase when a gate is taken. -/
noncomputable def droppedBy (f : Fusion ℝ) (g : ElementaryGate ℝ) : List (Matrix2 ℝ) :=
  if waits g then [] else g.wires.flatMap f.droppedAt

/-- The matrices that turn into phase from a state of the pass on. -/
noncomputable def dropped (f : Fusion ℝ) : List (ElementaryGate ℝ) → List (Matrix2 ℝ)
  | [] => f.droppedAt 1 ++ f.droppedAt 0
  | g :: gates => f.droppedBy g ++ (f.add g).dropped gates

/-- The operator of a matrix that waits on a wire. -/
noncomputable def pending (n wire : ℕ) : Option (Matrix2 ℝ) → Matrix (Fin (2 ^ n)) (Fin (2 ^ n)) ℂ
  | none => 1
  | some u => wireOperator n wire fun _ => u.toMatrix

/-- The operator that a state of the pass stands for. -/
noncomputable def operator (n : ℕ) (f : Fusion ℝ) : Matrix (Fin (2 ^ n)) (Fin (2 ^ n)) ℂ :=
  exp (f.phase * I) • (pending n 1 f.high * pending n 0 f.low * gatesOperator n f.written.reverse)

/-- Whether the matrices that wait are unitary and wait on wires of the register. -/
def IsUnitaryOn (n : ℕ) (f : Fusion ℝ) : Prop :=
  ∀ wire, ∀ u ∈ f.slot wire, wire < n ∧ u.toMatrix ∈ unitaryGroup Bool ℂ

variable {n wire : ℕ} {f : Fusion ℝ} {g : ElementaryGate ℝ} {u : Matrix2 ℝ}

section Slots

/-- At the start nothing waits. -/
lemma slot_empty (written : List (ElementaryGate ℝ)) (phase : ℝ) (p : ℕ) :
    (⟨none, none, written, phase⟩ : Fusion ℝ).slot p = none := by
  match p with
  | 0 => rfl
  | 1 => rfl
  | p + 2 => rfl

/-- What waits on a wire is in one of the two slots. -/
lemma slot_congr {f f' : Fusion ℝ} (hlow : f.low = f'.low) (hhigh : f.high = f'.high) (p : ℕ) : f.slot p = f'.slot p := by
  rcases p with _ | _ | p
  · exact hlow
  · exact hhigh
  · rfl

/-- Releasing a matrix leaves the slots as they are. -/
@[simp] lemma slot_release (f : Fusion ℝ) (wire p : ℕ) (o : Option (Matrix2 ℝ)) : (f.release wire o).slot p = f.slot p := by
  cases o with
  | none => rfl
  | some u =>
    rw [release]
    split
    · exact slot_congr rfl rfl p
    · exact slot_congr rfl rfl p

/-- Flushing the first wire empties its slot. -/
lemma flush_zero (f : Fusion ℝ) : f.flush 0 = { f with low := none }.release 0 f.low := rfl

/-- Flushing the second wire empties its slot. -/
lemma flush_one (f : Fusion ℝ) : f.flush 1 = { f with high := none }.release 1 f.high := rfl

/-- No other wire has anything to flush. -/
lemma flush_of_two_le (f : Fusion ℝ) (h : 2 ≤ wire) : f.flush wire = f := by
  rw [flush, if_neg (by omega), if_neg (by omega)]

/-- A flushed wire is empty, and the other one is as it was. -/
lemma slot_flush (f : Fusion ℝ) (wire p : ℕ) : (f.flush wire).slot p = if p = wire then none else f.slot p := by
  match wire, p with
  | 0, 0 => exact slot_release _ _ _ _
  | 0, 1 => exact slot_release _ _ _ _
  | 0, p + 2 => exact slot_release _ _ _ _
  | 1, 0 => exact slot_release _ _ _ _
  | 1, 1 => exact slot_release _ _ _ _
  | 1, p + 2 => exact slot_release _ _ _ _
  | wire + 2, p =>
    rw [flush_of_two_le f (Nat.le_add_left 2 wire)]
    split
    · next hp =>
      rw [hp]
      rfl
    · rfl

/-- Flushing leaves unitary matrices waiting. -/
lemma IsUnitaryOn.flush (hf : f.IsUnitaryOn n) (wire : ℕ) : (f.flush wire).IsUnitaryOn n := by
  intro p u hu
  rw [slot_flush] at hu
  split at hu
  · exact absurd hu (Option.not_mem_none u)
  · exact hf p u hu

/-- Flushing a wire drops nothing of another. -/
lemma droppedAt_flush {p : ℕ} (hp : p ≠ wire) : (f.flush wire).droppedAt p = f.droppedAt p := by
  rw [droppedAt, droppedAt, slot_flush, if_neg hp]

/-- Every wire of a list is flushed. -/
lemma slot_foldl_flush (f : Fusion ℝ) (wires : List ℕ) (p : ℕ) :
    (wires.foldl Fusion.flush f).slot p = if p ∈ wires then none else f.slot p := by
  induction wires generalizing f with
  | nil => rfl
  | cons wire wires ih =>
    rw [List.foldl_cons, ih, slot_flush]
    by_cases hp : p ∈ wires
    · rw [if_pos hp, if_pos (List.mem_cons_of_mem wire hp)]
    · rw [if_neg hp]
      simp only [List.mem_cons, hp, or_false]

end Slots

section Operator

/-- Whether a matrix is a multiple of the identity. -/
def IsExact (u : Matrix2 ℝ) : Prop := ∃ z : ℂ, u.toMatrix = z • 1

@[simp] lemma pending_none (n wire : ℕ) : pending n wire none = 1 := rfl

/-- A matrix that waits has the operator of its gate. -/
lemma pending_some (n wire : ℕ) (u : Matrix2 ℝ) : pending n wire (some u) = (ElementaryGate.unitary wire u).operator n := rfl

/-- A matrix that joins comes after what waited before. -/
lemma pending_join (hwire : wire < n) (o : Option (Matrix2 ℝ)) :
    pending n wire (join u o) = (ElementaryGate.unitary wire u).operator n * pending n wire o := by
  cases o with
  | none => exact (Matrix.mul_one _).symm
  | some earlier =>
    rw [join, ← pending_some, pending, pending, pending, wireOperator_mul hwire _ _ fun _ _ => rfl]
    simp only [Matrix2.toMatrix_mul]

/-- A gate commutes with what waits on a wire that it does not touch. -/
lemma operator_mul_pending (hg : g.Fits n) (hmem : wire ∉ g.wires) {o : Option (Matrix2 ℝ)} (ho : ∀ u ∈ o, wire < n) :
    g.operator n * pending n wire o = pending n wire o * g.operator n := by
  cases o with
  | none => rw [pending, Matrix.mul_one, Matrix.one_mul]
  | some u =>
    refine wireOperator_comm (ElementaryGate.target_lt hg) (ho u rfl) ?_ ?_ fun _ _ => rfl
    · rintro rfl
      cases g <;> simp [ElementaryGate.wires, ElementaryGate.target] at hmem
    · intro b i
      cases g with
      | unitary => rfl
      | rotation => rfl
      | entangler control target =>
        have hne : control ≠ wire := fun h => hmem (h ▸ List.mem_cons_self)
        simp only [ElementaryGate.block, testBit_setWire, if_neg hne]

/-- Matrices on different wires commute. -/
lemma pending_comm {o : Option (Matrix2 ℝ)} (ho : ∀ u ∈ o, 1 < n) (o' : Option (Matrix2 ℝ)) :
    pending n 1 o * pending n 0 o' = pending n 0 o' * pending n 1 o := by
  cases o with
  | none => rw [pending, Matrix.mul_one, Matrix.one_mul]
  | some u =>
    have hfits : (ElementaryGate.unitary 1 u : ElementaryGate ℝ).Fits n := ho u rfl
    exact operator_mul_pending hfits (by simp [ElementaryGate.wires]) fun _ _ => Nat.one_pos.trans (ho u rfl)

/-- The gates written are kept in reverse, so that the latest stands first. -/
lemma gatesOperator_written (g : ElementaryGate ℝ) (written : List (ElementaryGate ℝ)) :
    gatesOperator n (g :: written).reverse = g.operator n * gatesOperator n written.reverse := by
  rw [List.reverse_cons, gatesOperator_append, gatesOperator_singleton]

/-- A unitary multiple of the identity is a phase. -/
lemma pending_of_isExact (wire : ℕ) (hu : u.toMatrix ∈ unitaryGroup Bool ℂ) (hexact : IsExact u) :
    pending n wire (some u) = exp (u.a.arg * I) • 1 := by
  obtain ⟨z, hz⟩ := hexact
  rw [pending, Matrix2.toMatrix_eq_phase hu hz, wireOperator_smul, wireOperator_one]

/-- Flushing a wire keeps the operator, if what turns into phase is a phase. -/
lemma operator_flush (hf : f.IsUnitaryOn n) (hdrop : ∀ u ∈ f.droppedAt wire, IsExact u) :
    (f.flush wire).operator n = f.operator n := by
  have hexact {u : Matrix2 ℝ} (hslot : f.slot wire = some u) (hscalar : u.isScalar = true) :
      pending n wire (some u) = exp (u.a.arg * I) • 1 := by
    refine pending_of_isExact wire (hf wire u hslot).2 (hdrop u ?_)
    rw [droppedAt, hslot]
    exact List.mem_filter.2 ⟨List.mem_singleton_self u, hscalar⟩
  obtain ⟨low, high, written, phase⟩ := f
  match wire with
  | 0 =>
    cases low with
    | none => rfl
    | some u =>
      rw [flush_zero, release]
      split
      · next hscalar =>
        simp only [operator, Complex.exp_ofReal_add_mul_I, hexact rfl hscalar, pending_none, Matrix.mul_smul,
          Matrix.smul_mul, mul_smul]
      · simp only [operator, pending_none, pending_some, gatesOperator_written, Matrix.mul_one, Matrix.mul_assoc]
  | 1 =>
    cases high with
    | none => rfl
    | some u =>
      rw [flush_one, release]
      split
      · next hscalar =>
        simp only [operator, Complex.exp_ofReal_add_mul_I, hexact rfl hscalar, pending_none, Matrix.smul_mul, mul_smul]
      · -- what waits on wire zero is written later, so wire one has to move past it
        have hone : ∀ v ∈ some u, 1 < n := fun v hv => (hf 1 v hv).1
        have hcomm := pending_comm hone low
        simp only [operator, hcomm]
        simp only [pending_none, pending_some, gatesOperator_written, Matrix.one_mul, Matrix.mul_assoc]
  | wire + 2 => rw [flush_of_two_le _ (Nat.le_add_left 2 wire)]

/-- Flushing distinct wires keeps the operator. -/
lemma operator_foldl_flush {wires : List ℕ} (hnodup : wires.Nodup) (hf : f.IsUnitaryOn n)
    (hdrop : ∀ u ∈ wires.flatMap f.droppedAt, IsExact u) :
    (wires.foldl Fusion.flush f).operator n = f.operator n ∧ (wires.foldl Fusion.flush f).IsUnitaryOn n := by
  -- flushing a wire leaves alone what waits on the rest, so their hypothesis survives the step
  induction wires generalizing f with
  | nil => exact ⟨rfl, hf⟩
  | cons wire wires ih =>
    obtain ⟨hwire, hnodup⟩ := List.nodup_cons.1 hnodup
    rw [List.flatMap_cons, List.forall_mem_append] at hdrop
    have hrest : wires.flatMap (f.flush wire).droppedAt = wires.flatMap f.droppedAt :=
      List.flatMap_congr fun p hp => droppedAt_flush fun h => hwire (h ▸ hp)
    obtain ⟨hop, hunitary⟩ := ih hnodup (hf.flush wire) (hrest ▸ hdrop.2)
    exact ⟨hop.trans (operator_flush hf hdrop.1), hunitary⟩

/-- A gate that fits touches distinct wires. -/
lemma nodup_wires (hg : g.Fits n) : g.wires.Nodup := by
  cases g with
  | unitary => exact List.nodup_singleton _
  | rotation => exact List.nodup_singleton _
  | entangler control target => exact List.nodup_cons.2 ⟨List.mem_singleton.not.2 hg.2.2, List.nodup_singleton _⟩

/-- A gate that does not wait is written once its wires are flushed. -/
lemma add_of_not_waits (hg : waits g = false) :
    f.add g = { g.wires.foldl Fusion.flush f with written := g :: (g.wires.foldl Fusion.flush f).written } := by
  cases g with
  | unitary wire u =>
    match wire with
    | 0 => exact absurd hg Bool.true_eq_false.mp
    | 1 => exact absurd hg Bool.true_eq_false.mp
    | wire + 2 => rfl
  | rotation => rfl
  | entangler => rfl

/-- A gate that waits is a matrix on one of the two wires. -/
lemma exists_of_waits (hg : waits g = true) : ∃ wire < 2, ∃ u, g = .unitary wire u := by
  cases g with
  | unitary wire u => exact ⟨wire, by simpa using hg, u, rfl⟩
  | rotation => exact absurd hg Bool.false_ne_true
  | entangler => exact absurd hg Bool.false_ne_true

/-- Nothing is written while a gate waits. -/
lemma written_add_of_waits (hg : waits g = true) : (f.add g).written = f.written := by
  obtain ⟨wire, hwire, u, rfl⟩ := exists_of_waits hg
  obtain rfl | rfl : wire = 0 ∨ wire = 1 := by omega
  · rfl
  · rfl

/-- A matrix waits behind the one before it on its wire. -/
lemma slot_add_of_lt (hwire : wire < 2) (p : ℕ) :
    (f.add (.unitary wire u)).slot p = if p = wire then join u (f.slot wire) else f.slot p := by
  match wire, hwire, p with
  | 0, _, 0 => rfl
  | 0, _, 1 => rfl
  | 0, _, p + 2 => rfl
  | 1, _, 0 => rfl
  | 1, _, 1 => rfl
  | 1, _, p + 2 => rfl

/-- Nothing waits any more on the wires of a gate that does not wait. -/
lemma slot_add_of_not_waits (hg : waits g = false) (p : ℕ) :
    (f.add g).slot p = if p ∈ g.wires then none else f.slot p := by
  rw [add_of_not_waits hg, ← slot_foldl_flush]
  exact slot_congr rfl rfl p

/-- A unitary matrix that joins unitary ones is unitary. -/
lemma IsUnitaryOn.join (hu : u.toMatrix ∈ unitaryGroup Bool ℂ) (hwire : wire < n) {o : Option (Matrix2 ℝ)}
    (ho : ∀ v ∈ o, wire < n ∧ v.toMatrix ∈ unitaryGroup Bool ℂ) :
    ∀ v ∈ Fusion.join u o, wire < n ∧ v.toMatrix ∈ unitaryGroup Bool ℂ := by
  cases o with
  | none => exact fun v hv => ⟨hwire, Option.mem_some.1 hv ▸ hu⟩
  | some earlier =>
    intro v hv
    rw [← Option.mem_some.1 hv, Matrix2.toMatrix_mul]
    exact ⟨hwire, mul_mem hu (ho earlier rfl).2⟩

/-- Taking in a gate leaves unitary matrices waiting. -/
lemma IsUnitaryOn.add (hf : f.IsUnitaryOn n) (hfits : g.Fits n) (hg : waits g = true → g.IsUnitary) :
    (f.add g).IsUnitaryOn n := by
  intro p v hv
  cases hw : waits g with
  | false =>
    rw [slot_add_of_not_waits hw] at hv
    split at hv
    case isTrue => exact absurd hv (Option.not_mem_none v)
    case isFalse => exact hf p v hv
  | true =>
    obtain ⟨wire, hwire, u, rfl⟩ := exists_of_waits hw
    rw [slot_add_of_lt hwire] at hv
    split at hv
    case isTrue heq =>
      subst heq
      exact IsUnitaryOn.join (hg hw) hfits (hf p) v hv
    case isFalse => exact hf p v hv

/-- Taking a matrix that waits multiplies the operator by it. -/
lemma operator_add_of_waits (hw : waits g = true) (hfits : g.Fits n) (hf : f.IsUnitaryOn n) :
    (f.add g).operator n = g.operator n * f.operator n := by
  obtain ⟨wire, hwire, u, rfl⟩ := exists_of_waits hw
  obtain rfl | rfl : wire = 0 ∨ wire = 1 := by omega
  · have hone : 1 ∉ (ElementaryGate.unitary 0 u).wires := by simp [ElementaryGate.wires]
    have hhigh : ∀ v ∈ f.high, 1 < n := fun v hv => (hf 1 v hv).1
    have hcomm := operator_mul_pending hfits hone hhigh
    calc operator n { f with low := Fusion.join u f.low }
        = exp (f.phase * I) • (pending n 1 f.high * ((ElementaryGate.unitary 0 u).operator n * pending n 0 f.low) *
            gatesOperator n f.written.reverse) := by rw [operator, pending_join hfits]
      _ = (ElementaryGate.unitary 0 u).operator n * f.operator n := by
          rw [← Matrix.mul_assoc, ← hcomm, operator, Matrix.mul_smul]
          simp only [Matrix.mul_assoc]
  · calc operator n { f with high := Fusion.join u f.high }
        = exp (f.phase * I) • ((ElementaryGate.unitary 1 u).operator n * pending n 1 f.high * pending n 0 f.low *
            gatesOperator n f.written.reverse) := by rw [operator, pending_join hfits]
      _ = (ElementaryGate.unitary 1 u).operator n * f.operator n := by
          rw [operator, Matrix.mul_smul]
          simp only [Matrix.mul_assoc]

/-- Taking any other gate flushes its wires and multiplies the operator by it. -/
lemma operator_add_of_not_waits (hw : waits g = false) (hfits : g.Fits n) (hf : f.IsUnitaryOn n)
    (hdrop : ∀ u ∈ g.wires.flatMap f.droppedAt, IsExact u) : (f.add g).operator n = g.operator n * f.operator n := by
  obtain ⟨hop, hunitary⟩ := operator_foldl_flush (nodup_wires hfits) hf hdrop
  have hcomm (wire : ℕ) : g.operator n * pending n wire ((g.wires.foldl Fusion.flush f).slot wire) =
      pending n wire ((g.wires.foldl Fusion.flush f).slot wire) * g.operator n := by
    by_cases hmem : wire ∈ g.wires
    · rw [slot_foldl_flush, if_pos hmem, pending_none, Matrix.mul_one, Matrix.one_mul]
    · exact operator_mul_pending hfits hmem fun u hu => (hunitary wire u hu).1
  -- from here on only what waits and what is written counts, not where it came from
  rw [add_of_not_waits hw, ← hop]
  generalize g.wires.foldl Fusion.flush f = f' at hcomm
  have hlow : g.operator n * pending n 0 f'.low = pending n 0 f'.low * g.operator n := hcomm 0
  have hhigh : g.operator n * pending n 1 f'.high = pending n 1 f'.high * g.operator n := hcomm 1
  calc operator n { f' with written := g :: f'.written }
      = exp (f'.phase * I) • (pending n 1 f'.high * pending n 0 f'.low *
          (g.operator n * gatesOperator n f'.written.reverse)) := by rw [operator, gatesOperator_written]
    _ = exp (f'.phase * I) • (g.operator n * (pending n 1 f'.high * pending n 0 f'.low *
          gatesOperator n f'.written.reverse)) := by
        rw [← Matrix.mul_assoc, Matrix.mul_assoc (pending n 1 f'.high), ← hlow, ← Matrix.mul_assoc _ (g.operator n),
          ← hhigh]
        simp only [Matrix.mul_assoc]
    _ = g.operator n * f'.operator n := by rw [operator, Matrix.mul_smul]

/-- Taking a gate multiplies the operator by the gate's. -/
lemma operator_add (hfits : g.Fits n) (hf : f.IsUnitaryOn n) (hdrop : ∀ u ∈ f.droppedBy g, IsExact u) :
    (f.add g).operator n = g.operator n * f.operator n := by
  rw [droppedBy] at hdrop
  cases hw : waits g with
  | true => exact operator_add_of_waits hw hfits hf
  | false =>
    rw [hw, if_neg Bool.false_ne_true] at hdrop
    exact operator_add_of_not_waits hw hfits hf hdrop

/-- Nothing waits after both wires are flushed. -/
lemma phasedOperator_flush (hf : f.IsUnitaryOn n) (hdrop : ∀ u ∈ f.droppedAt 1 ++ f.droppedAt 0, IsExact u) :
    phasedOperator n (((f.flush 1).flush 0).written.reverse, ((f.flush 1).flush 0).phase) = f.operator n := by
  have hnodup : [1, 0].Nodup := by decide
  have hlist : [1, 0].flatMap f.droppedAt = f.droppedAt 1 ++ f.droppedAt 0 := by
    rw [List.flatMap_cons, List.flatMap_singleton]
  obtain ⟨hop, -⟩ := operator_foldl_flush hnodup hf (hlist ▸ hdrop)
  have hlow : ((f.flush 1).flush 0).low = none := slot_foldl_flush f [1, 0] 0
  have hhigh : ((f.flush 1).flush 0).high = none := slot_foldl_flush f [1, 0] 1
  rw [← hop]
  simp only [List.foldl_cons, List.foldl_nil, operator, hlow, hhigh, pending_none, Matrix.one_mul, phasedOperator]

/-- The pass keeps the operator of what it has still to take. -/
lemma phasedOperator_foldl_add {gates : List (ElementaryGate ℝ)} (hfits : ∀ g ∈ gates, g.Fits n)
    (hg : ∀ g ∈ gates, waits g = true → g.IsUnitary) (hf : f.IsUnitaryOn n) (hdrop : ∀ u ∈ f.dropped gates, IsExact u) :
    phasedOperator n
      ((((gates.foldl add f).flush 1).flush 0).written.reverse, (((gates.foldl add f).flush 1).flush 0).phase) =
        gatesOperator n gates * f.operator n := by
  -- the invariant is that the state stands for what has been taken so far
  induction gates generalizing f with
  | nil => rw [List.foldl_nil, phasedOperator_flush hf hdrop, gatesOperator_nil, Matrix.one_mul]
  | cons g gates ih =>
    rw [List.forall_mem_cons] at hfits hg
    rw [dropped, List.forall_mem_append] at hdrop
    have hunitary := hf.add hfits.1 hg.1
    rw [List.foldl_cons, ih hfits.2 hg.2 hunitary hdrop.2, operator_add hfits.1 hf hdrop.1, gatesOperator_cons,
      Matrix.mul_assoc]

end Operator

/-- The gates of a list that never wait. -/
def passing (gates : List (ElementaryGate ℝ)) : List (ElementaryGate ℝ) := gates.filter fun g => !waits g

end Fusion

section Fuse

variable {n : ℕ} {gates : List (ElementaryGate ℝ)} {phase : ℝ}

/-- The matrices that fusing a list of gates turns into phase. -/
noncomputable def fuseDropped (gates : List (ElementaryGate ℝ)) (phase : ℝ) : List (Matrix2 ℝ) :=
  Fusion.dropped ⟨none, none, [], phase⟩ gates

/-- Fusing keeps the operator of a list of gates with its phase, if the matrices that wait are unitary and every matrix
that is dropped is a multiple of the identity. -/
theorem phasedOperator_fuse_of_waits (hfits : ∀ g ∈ gates, g.Fits n) (hg : ∀ g ∈ gates, waits g = true → g.IsUnitary)
    (hdrop : ∀ u ∈ fuseDropped gates phase, Fusion.IsExact u) :
    phasedOperator n (fuse gates phase) = phasedOperator n (gates, phase) := by
  have hempty : (⟨none, none, [], phase⟩ : Fusion ℝ).IsUnitaryOn n := by
    intro wire u hu
    rw [Fusion.slot_empty] at hu
    exact absurd hu (Option.not_mem_none u)
  refine (Fusion.phasedOperator_foldl_add hfits hg hempty hdrop).trans ?_
  rw [Fusion.operator, List.reverse_nil, gatesOperator_nil, Fusion.pending_none, Fusion.pending_none, Matrix.one_mul,
    Matrix.mul_smul, Matrix.mul_one, Matrix.mul_one, phasedOperator_mk]

/-- Fusing keeps the operator of unitary gates on the first wires of a register. -/
theorem phasedOperator_fuse {m : ℕ} (hm : m ≤ n) (hfits : ∀ g ∈ gates, g.Fits m) (hg : ∀ g ∈ gates, g.IsUnitary)
    (hdrop : ∀ u ∈ fuseDropped gates phase, Fusion.IsExact u) :
    phasedOperator n (fuse gates phase) = phasedOperator n (gates, phase) :=
  phasedOperator_fuse_of_waits (fun g hmem => (hfits g hmem).mono hm) (fun g hmem _ => hg g hmem) hdrop

/-- Fusing keeps all gates that never wait, in their order. -/
theorem passing_fuse (gates : List (ElementaryGate ℝ)) (phase : ℝ) :
    Fusion.passing (fuse gates phase).1 = Fusion.passing gates :=
  filter_fuse fun wire hwire u => by rw [waits_unitary, decide_eq_true hwire, Bool.not_true]

end Fuse

end CircuitSynthesis.TwoQubit
