import Mathlib
import CircuitSynthesis.Proofs.Register.Operands

/-!
# Operators on several wires of a register

`operandsOperator` applies a matrix to a list of wires and leaves the others alone. On distinct wires of the register this
keeps products, the identity and adjoints, so that a unitary matrix gives a unitary operator, and on disjoint lists of
wires the operators commute (`operandsOperator_comm`).
-/

namespace CircuitSynthesis

open Matrix

variable {n k l x y i : ℕ} {wires wires' : List ℕ}

section Disjoint

/-- Wires that are not written are read as before. -/
lemma operandIndex_setOperands_of_disjoint (h : wires.Disjoint wires') :
    operandIndex wires (setOperands wires' x i) = operandIndex wires i := by
  induction wires with
  | nil => rfl
  | cons q wires ih =>
    rw [List.disjoint_cons_left] at h
    rw [operandIndex, operandIndex, testBit_setOperands_of_notMem h.1, ih h.2]

/-- Disjoint lists of wires are written in either order. -/
lemma setOperands_comm (h : wires.Disjoint wires') :
    setOperands wires x (setOperands wires' y i) = setOperands wires' y (setOperands wires x i) := by
  apply Nat.eq_of_testBit_eq
  intro p
  by_cases hp : p ∈ wires
  · rw [testBit_setOperands_of_notMem (h hp), testBit_setOperands_of_mem hp]
  · by_cases hp' : p ∈ wires'
    · rw [testBit_setOperands_of_notMem hp, testBit_setOperands_of_mem hp']
    · simp only [testBit_setOperands_of_notMem hp, testBit_setOperands_of_notMem hp']

end Disjoint

/-- The operator that applies a matrix to the listed wires of a register of `n` wires. -/
def operandsOperator (n : ℕ) (hlength : wires.length = k) (m : Matrix (Fin (2 ^ k)) (Fin (2 ^ k)) ℂ) :
    Matrix (Fin (2 ^ n)) (Fin (2 ^ n)) ℂ :=
  fun i j => if setOperands wires 0 i = setOperands wires 0 j
    then m (operandIndexFin hlength i) (operandIndexFin hlength j) else 0

section Operator

variable {hlength : wires.length = k} {m m' : Matrix (Fin (2 ^ k)) (Fin (2 ^ k)) ℂ}

/-- Entry by entry, an operator on some wires compares the others. -/
lemma operandsOperator_apply (i j : Fin (2 ^ n)) : operandsOperator n hlength m i j =
    if setOperands wires 0 i = setOperands wires 0 j
      then m (operandIndexFin hlength i) (operandIndexFin hlength j) else 0 := rfl

/-- Operands that were replaced by a number read this number. -/
lemma operandIndexFin_setOperands (hnodup : wires.Nodup) (x : Fin (2 ^ k)) (i : ℕ) :
    operandIndexFin hlength (setOperands wires x i) = x := by
  subst hlength
  exact Fin.ext (operandIndex_setOperands hnodup x.isLt)

/-- Indices that agree outside the operands differ by what the operands read. -/
lemma setOperands_eq_of_agree {i j : ℕ} (h : setOperands wires 0 i = setOperands wires 0 j) :
    setOperands wires (operandIndex wires j) i = j :=
  calc setOperands wires (operandIndex wires j) i
      = setOperands wires (operandIndex wires j) (setOperands wires 0 j) := by rw [← h, setOperands_setOperands]
    _ = j := by rw [setOperands_setOperands, setOperands_operandIndex]

/-- A sum over the indices that agree with `i` outside the operands runs over the values of the operands. -/
lemma sum_agree_eq {β : Type} [AddCommMonoid β] (hnodup : wires.Nodup) (hrange : ∀ q ∈ wires, q < n) (i : Fin (2 ^ n))
    (hlength : wires.length = k) (f : Fin (2 ^ n) → β) :
    ∑ j : Fin (2 ^ n), (if setOperands wires 0 i = setOperands wires 0 j then f j else 0) =
      ∑ x : Fin (2 ^ k), f (setOperandsFin hrange x i) := by
  rw [← Finset.sum_filter]
  refine Finset.sum_nbij' (operandIndexFin hlength ·) (setOperandsFin hrange · i) (fun _ _ => Finset.mem_univ _)
    (fun x _ => ?_) (fun j hj => ?_) (fun x _ => ?_) (fun j hj => ?_)
  · rw [Finset.mem_filter, val_setOperandsFin, setOperands_setOperands]
    exact ⟨Finset.mem_univ _, rfl⟩
  · exact Fin.ext (setOperands_eq_of_agree (Finset.mem_filter.1 hj).2)
  · exact operandIndexFin_setOperands hnodup x i
  · exact congrArg f (Fin.ext (setOperands_eq_of_agree (Finset.mem_filter.1 hj).2)).symm

/-- The row that the operands select, applied to the entries that differ from `i` in the operands alone. -/
lemma operandsOperator_mulVec (hnodup : wires.Nodup) (hrange : ∀ q ∈ wires, q < n) (ψ : Fin (2 ^ n) → ℂ)
    (i : Fin (2 ^ n)) : (operandsOperator n hlength m *ᵥ ψ) i =
      ∑ x, m (operandIndexFin hlength i) x * ψ (setOperandsFin hrange x i) := by
  have hterm (j : Fin (2 ^ n)) : operandsOperator n hlength m i j * ψ j =
      if setOperands wires 0 i = setOperands wires 0 j
        then m (operandIndexFin hlength i) (operandIndexFin hlength j) * ψ j else 0 := by
    rw [operandsOperator_apply, ite_mul, zero_mul]
  rw [mulVec, dotProduct, Finset.sum_congr rfl fun j _ => hterm j, sum_agree_eq hnodup hrange i hlength]
  simp only [val_setOperandsFin, operandIndexFin_setOperands hnodup]

/-- Operators on the same wires multiply as their matrices do. -/
lemma operandsOperator_mul (hnodup : wires.Nodup) (hrange : ∀ q ∈ wires, q < n) :
    operandsOperator n hlength m * operandsOperator n hlength m' = operandsOperator n hlength (m * m') := by
  ext i j
  have hcolumn : (operandsOperator n hlength m * operandsOperator n hlength m') i j =
      (operandsOperator n hlength m *ᵥ fun l => operandsOperator n hlength m' l j) i := rfl
  rw [hcolumn, operandsOperator_mulVec hnodup hrange]
  simp only [operandsOperator_apply, val_setOperandsFin, operandIndexFin_setOperands hnodup, setOperands_setOperands]
  split
  · rw [Matrix.mul_apply]
  · simp only [mul_zero, Finset.sum_const_zero]

/-- The identity matrix does nothing to its wires. -/
lemma operandsOperator_one : operandsOperator n hlength 1 = 1 := by
  ext i j
  rw [operandsOperator_apply, one_apply, one_apply]
  by_cases hij : i = j
  · rw [hij, if_pos rfl, if_pos rfl, if_pos rfl]
  · rw [if_neg hij]
    split_ifs with hagree hread
    · have hindex : operandIndex wires i = operandIndex wires j := congrArg Fin.val hread
      have hself := setOperands_eq_of_agree hagree
      rw [← hindex, setOperands_operandIndex] at hself
      exact absurd (Fin.ext hself) hij
    · rfl
    · rfl

/-- The adjoint of an operator on some wires has the adjoint matrix. -/
lemma operandsOperator_conjTranspose : (operandsOperator n hlength m)ᴴ = operandsOperator n hlength mᴴ := by
  ext i j
  rw [conjTranspose_apply, operandsOperator_apply, operandsOperator_apply]
  by_cases hagree : setOperands wires 0 i.val = setOperands wires 0 j.val
  · rw [if_pos hagree, if_pos hagree.symm, conjTranspose_apply]
  · rw [if_neg hagree, if_neg (Ne.symm hagree), star_zero]

/-- A unitary matrix gives a unitary operator. -/
lemma operandsOperator_mem_unitary (hnodup : wires.Nodup) (hrange : ∀ q ∈ wires, q < n)
    (hm : m ∈ unitaryGroup (Fin (2 ^ k)) ℂ) : operandsOperator n hlength m ∈ unitaryGroup (Fin (2 ^ n)) ℂ := by
  rw [mem_unitaryGroup_iff, star_eq_conjTranspose, operandsOperator_conjTranspose, operandsOperator_mul hnodup hrange,
    ← star_eq_conjTranspose, mem_unitaryGroup_iff.1 hm, operandsOperator_one]

/-- Operators on disjoint lists of wires commute. -/
theorem operandsOperator_comm {hlength' : wires'.length = l} {w : Matrix (Fin (2 ^ l)) (Fin (2 ^ l)) ℂ}
    (hnodup : wires.Nodup) (hrange : ∀ q ∈ wires, q < n) (hnodup' : wires'.Nodup) (hrange' : ∀ q ∈ wires', q < n)
    (h : wires.Disjoint wires') :
    operandsOperator n hlength m * operandsOperator n hlength' w =
      operandsOperator n hlength' w * operandsOperator n hlength m := by
  have hswap (x y : ℕ) (i : Fin (2 ^ n)) : setOperandsFin hrange' y (setOperandsFin hrange x i) =
      setOperandsFin hrange x (setOperandsFin hrange' y i) := Fin.ext (setOperands_comm h.symm)
  have hread (y : ℕ) (i : Fin (2 ^ n)) : operandIndexFin hlength (setOperandsFin hrange' y i) =
      operandIndexFin hlength i := Fin.ext (operandIndex_setOperands_of_disjoint h)
  have hread' (x : ℕ) (i : Fin (2 ^ n)) : operandIndexFin hlength' (setOperandsFin hrange x i) =
      operandIndexFin hlength' i := Fin.ext (operandIndex_setOperands_of_disjoint h.symm)
  apply Matrix.mulVec_injective
  funext ψ i
  simp only [← mulVec_mulVec, operandsOperator_mulVec hnodup hrange, operandsOperator_mulVec hnodup' hrange', hread,
    hread', hswap, Finset.mul_sum]
  rw [Finset.sum_comm]
  exact Finset.sum_congr rfl fun y _ => Finset.sum_congr rfl fun x _ => mul_left_comm _ _ _

end Operator

end CircuitSynthesis
