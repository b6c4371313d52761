import Mathlib
import CircuitSynthesis.Proofs.Register.Wire
import CircuitSynthesis.Statevector.Kernels

/-!
# Operands of a gate

The operands of a gate are a list of wires. `operandIndex` reads their values off a basis index, the first wire as the
lowest bit, and `setOperands` replaces them. Masks and offsets are sums of powers of two; as the wires are distinct,
adding is the same as joining bits, so that a mask finds the indices whose operands all read zero
(`and_operandMask_eq_zero_iff`) and joining an offset to such an index sets the operands (`or_operandOffset`).
-/

namespace CircuitSynthesis

/-- The values of the listed wires; operand `b` is bit `b`. -/
def operandIndex : List ℕ → ℕ → ℕ
  | [], _ => 0
  | q :: wires, i => Nat.bit (i.testBit q) (operandIndex wires i)

/-- The index with the values of the listed wires replaced by the bits of `x`. -/
def setOperands : List ℕ → ℕ → ℕ → ℕ
  | [], _, i => i
  | q :: wires, x, i => setWire q (x.testBit 0) (setOperands wires (x / 2) i)

variable {n q p x i j : ℕ} {wires : List ℕ}

section OperandIndex

/-- The operands read a number of as many bits as there are wires. -/
lemma operandIndex_lt (wires : List ℕ) (i : ℕ) : operandIndex wires i < 2 ^ wires.length := by
  induction wires with
  | nil => exact Nat.one_pos
  | cons q wires ih =>
    rw [operandIndex, List.length_cons, Nat.pow_succ', Nat.bit_val]
    cases i.testBit q <;> simp only [Bool.toNat_false, Bool.toNat_true] <;> omega

/-- The operands of a gate read an index of its matrix. -/
lemma operandIndex_lt_of_length {k : ℕ} (h : wires.length = k) (i : ℕ) : operandIndex wires i < 2 ^ k :=
  h ▸ operandIndex_lt wires i

/-- The values of the operands as an index of the gate's matrix. -/
def operandIndexFin {k : ℕ} (h : wires.length = k) (i : ℕ) : Fin (2 ^ k) :=
  ⟨operandIndex wires i, operandIndex_lt_of_length h i⟩

/-- Operand `b` is read as bit `b`. -/
lemma testBit_operandIndex {b : ℕ} (hb : b < wires.length) : (operandIndex wires i).testBit b = i.testBit wires[b] := by
  induction wires generalizing b with
  | nil => exact absurd hb (Nat.not_lt_zero b)
  | cons q wires ih =>
    rw [operandIndex]
    cases b with
    | zero => exact Nat.testBit_bit_zero _ _
    | succ b =>
      rw [Nat.testBit_bit_succ, ih (Nat.lt_of_succ_lt_succ hb)]
      rfl

end OperandIndex

section SetOperands

/-- Other wires are not replaced. -/
lemma testBit_setOperands_of_notMem (hp : p ∉ wires) : (setOperands wires x i).testBit p = i.testBit p := by
  induction wires generalizing x with
  | nil => rfl
  | cons q wires ih =>
    rw [List.mem_cons, not_or] at hp
    rw [setOperands, testBit_setWire, if_neg hp.1, ih hp.2]

/-- Where an operand is written, the old value is lost. -/
lemma testBit_setOperands_of_mem (hp : p ∈ wires) :
    (setOperands wires x i).testBit p = (setOperands wires x j).testBit p := by
  induction wires generalizing x with
  | nil => exact absurd hp List.not_mem_nil
  | cons q wires ih =>
    rw [setOperands, setOperands, testBit_setWire, testBit_setWire]
    split
    · rfl
    · next hne => exact ih ((List.mem_cons.1 hp).resolve_left hne)

/-- Replacing operands by zero clears their bits. -/
lemma testBit_setOperands_zero (hp : p ∈ wires) : (setOperands wires 0 i).testBit p = false := by
  induction wires with
  | nil => exact absurd hp List.not_mem_nil
  | cons q wires ih =>
    rw [setOperands, testBit_setWire, Nat.zero_testBit, Nat.zero_div]
    split
    · rfl
    · next hne => exact ih ((List.mem_cons.1 hp).resolve_left hne)

/-- Replacing operands within the register stays within it. -/
lemma setOperands_lt (hrange : ∀ q ∈ wires, q < n) (hi : i < 2 ^ n) : setOperands wires x i < 2 ^ n := by
  induction wires generalizing x with
  | nil => exact hi
  | cons q wires ih =>
    rw [List.forall_mem_cons] at hrange
    exact setWire_lt hrange.1 (ih hrange.2)

/-- The basis index with the values of operands within the register replaced. -/
def setOperandsFin (hrange : ∀ q ∈ wires, q < n) (x : ℕ) (i : Fin (2 ^ n)) : Fin (2 ^ n) :=
  ⟨setOperands wires x i, setOperands_lt hrange i.isLt⟩

@[simp] lemma val_setOperandsFin (hrange : ∀ q ∈ wires, q < n) (x : ℕ) (i : Fin (2 ^ n)) :
    (setOperandsFin hrange x i).val = setOperands wires x i := rfl

/-- The last replacement of operands counts. -/
@[simp] lemma setOperands_setOperands (wires : List ℕ) (x y i : ℕ) :
    setOperands wires x (setOperands wires y i) = setOperands wires x i := by
  apply Nat.eq_of_testBit_eq
  intro p
  by_cases hp : p ∈ wires
  · exact testBit_setOperands_of_mem hp
  · rw [testBit_setOperands_of_notMem hp, testBit_setOperands_of_notMem hp, testBit_setOperands_of_notMem hp]

/-- The last replacement of operands counts within the register too. -/
@[simp] lemma setOperandsFin_setOperandsFin (hrange : ∀ q ∈ wires, q < n) (x y : ℕ) (i : Fin (2 ^ n)) :
    setOperandsFin hrange x (setOperandsFin hrange y i) = setOperandsFin hrange x i :=
  Fin.ext (setOperands_setOperands wires x y i)

/-- Writing back what was read changes nothing. -/
@[simp] lemma setOperands_operandIndex (wires : List ℕ) (i : ℕ) : setOperands wires (operandIndex wires i) i = i := by
  induction wires with
  | nil => rfl
  | cons q wires ih =>
    rw [operandIndex, setOperands, Nat.testBit_bit_zero, Nat.bit_div_two, ih, setWire_testBit_self]

/-- What was written is read. -/
lemma operandIndex_setOperands (hnodup : wires.Nodup) (hx : x < 2 ^ wires.length) :
    operandIndex wires (setOperands wires x i) = x := by
  induction wires generalizing x i with
  | nil => exact (Nat.lt_one_iff.1 hx).symm
  | cons q wires ih =>
    obtain ⟨hq, hnodup⟩ := List.nodup_cons.1 hnodup
    -- writing the first wire does not disturb the others, which are distinct from it
    have hrest : operandIndex wires (setOperands (q :: wires) x i) = x / 2 := by
      have hagree : operandIndex wires (setOperands (q :: wires) x i) =
          operandIndex wires (setOperands wires (x / 2) i) := by
        apply Nat.eq_of_testBit_eq
        intro b
        by_cases hb : b < wires.length
        · have hne : wires[b] ≠ q := fun h => hq (h ▸ List.getElem_mem hb)
          rw [testBit_operandIndex hb, testBit_operandIndex hb, setOperands, testBit_setWire, if_neg hne]
        · have hlarge (y : ℕ) : (operandIndex wires y).testBit b = false :=
            Nat.testBit_lt_two_pow ((operandIndex_lt wires y).trans_le (Nat.pow_le_pow_right two_pos (not_lt.1 hb)))
          rw [hlarge, hlarge]
      rw [hagree]
      rw [List.length_cons, Nat.pow_succ'] at hx
      exact ih hnodup (by omega)
    rw [operandIndex, hrest, setOperands, testBit_setWire, if_pos rfl, Nat.testBit_zero]
    exact Nat.bit_decide_mod_two_eq_one_shiftRight_one x

end SetOperands

section Masks

/-- The mask of a wire is a power of two. -/
lemma wireMask_eq (q : ℕ) : Statevector.wireMask q = 2 ^ q := Nat.one_shiftLeft q

/-- The mask of a wire has the bit of the wire and no other. -/
lemma testBit_wireMask (q p : ℕ) : (Statevector.wireMask q).testBit p = decide (q = p) := by
  rw [wireMask_eq, Nat.testBit_two_pow]

/-- The mask of a wire tells whether the wire reads zero. -/
lemma and_wireMask_eq_zero_iff : i &&& Statevector.wireMask q = 0 ↔ i.testBit q = false := by
  rw [wireMask_eq, Nat.and_two_pow]
  cases i.testBit q <;> simp

/-- Adding the mask of a wire sets its bit. -/
lemma or_wireMask (i q : ℕ) : i ||| Statevector.wireMask q = setWire q true i := by
  apply Nat.eq_of_testBit_eq
  intro p
  rw [Nat.testBit_or, testBit_wireMask, testBit_setWire]
  by_cases hp : p = q
  · simp [hp]
  · simp [hp, Ne.symm hp]

/-- Numbers without a common bit are added by joining their bits. -/
lemma add_eq_or_of_and_eq_zero (a b : ℕ) (h : a &&& b = 0) : a + b = a ||| b := by
  -- the lowest bits never carry, and what is left has no common bit either
  induction a using Nat.strong_induction_on generalizing b with
  | h a ih =>
    have hor : (a ||| b) % 2 = 1 ↔ a % 2 = 1 ∨ b % 2 = 1 := Nat.or_mod_two_eq_one
    have hand : ¬(a % 2 = 1 ∧ b % 2 = 1) := by
      rw [← Nat.and_mod_two_eq_one, h]
      exact Nat.zero_mod 2 ▸ Nat.zero_ne_one
    rcases Nat.eq_zero_or_pos a with rfl | ha
    · rw [Nat.zero_add, Nat.zero_or]
    · have hhalf : a / 2 + b / 2 = (a ||| b) / 2 := by
        rw [Nat.or_div_two]
        exact ih (a / 2) (by omega) (b / 2) (by rw [← Nat.and_div_two, h])
      omega

/-- A mask with one wire more. -/
lemma wireMask_add {m : ℕ} (hm : m.testBit q = false) : Statevector.wireMask q + m = Statevector.wireMask q ||| m :=
  add_eq_or_of_and_eq_zero _ _ (by rw [Nat.and_comm, and_wireMask_eq_zero_iff, hm])

/-- The joint mask of the operands. -/
def operandMask (wires : List ℕ) : ℕ := wires.foldl (fun mask q => mask + Statevector.wireMask q) 0

/-- The joint mask sums the masks of the operands. -/
lemma operandMask_eq_sum (wires : List ℕ) : operandMask wires = (wires.map Statevector.wireMask).sum := by
  rw [operandMask, List.sum_eq_foldl, List.foldl_map]

/-- The joint mask has the bits of the operands and no others. -/
lemma testBit_operandMask (hnodup : wires.Nodup) (p : ℕ) : (operandMask wires).testBit p = decide (p ∈ wires) := by
  rw [operandMask_eq_sum]
  induction wires generalizing p with
  | nil => simp
  | cons q wires ih =>
    obtain ⟨hq, hnodup⟩ := List.nodup_cons.1 hnodup
    have hrest : ((wires.map Statevector.wireMask).sum).testBit q = false := by
      rw [ih hnodup, decide_eq_false hq]
    rw [List.map_cons, List.sum_cons, wireMask_add hrest, Nat.testBit_or, testBit_wireMask, ih hnodup, ← Bool.decide_or]
    simp only [List.mem_cons, eq_comm]

/-- The mask finds the indices whose operands all read zero. -/
lemma and_operandMask_eq_zero_iff (hnodup : wires.Nodup) : i &&& operandMask wires = 0 ↔ setOperands wires 0 i = i := by
  constructor
  · intro h
    apply Nat.eq_of_testBit_eq
    intro p
    by_cases hp : p ∈ wires
    · have hbit := congrArg (Nat.testBit · p) h
      simp only [Nat.testBit_and, testBit_operandMask hnodup, decide_eq_true hp, Bool.and_true, Nat.zero_testBit] at hbit
      rw [testBit_setOperands_zero hp, hbit]
    · exact testBit_setOperands_of_notMem hp
  · intro h
    apply Nat.eq_of_testBit_eq
    intro p
    rw [Nat.testBit_and, testBit_operandMask hnodup, Nat.zero_testBit, Bool.and_eq_false_iff]
    by_cases hp : p ∈ wires
    · rw [← h]
      exact .inl (testBit_setOperands_zero hp)
    · exact .inr (decide_eq_false hp)

/-- The offset of some operand values has no bits outside the operands. -/
lemma testBit_operandOffset_of_notMem (hnodup : wires.Nodup) (hp : p ∉ wires) :
    (Statevector.operandOffset wires x).testBit p = false := by
  induction wires generalizing x p with
  | nil => exact Nat.zero_testBit p
  | cons q wires ih =>
    obtain ⟨hq, hnodup⟩ := List.nodup_cons.1 hnodup
    rw [List.mem_cons, not_or] at hp
    rw [Statevector.operandOffset]
    split
    · rw [wireMask_add (ih hnodup hq), Nat.testBit_or, testBit_wireMask, ih hnodup hp.2, decide_eq_false (Ne.symm hp.1),
        Bool.or_false]
    · rw [Nat.zero_add, ih hnodup hp.2]

/-- Joining an offset to an index whose operands all read zero sets the operands. -/
lemma or_operandOffset (hnodup : wires.Nodup) (hi : ∀ p ∈ wires, i.testBit p = false) :
    i ||| Statevector.operandOffset wires x = setOperands wires x i := by
  induction wires generalizing x with
  | nil => exact Nat.or_zero i
  | cons q wires ih =>
    obtain ⟨hq, hnodup⟩ := List.nodup_cons.1 hnodup
    rw [List.forall_mem_cons] at hi
    rw [Statevector.operandOffset, setOperands, ← ih hnodup hi.2, Nat.testBit_zero]
    split
    · next hodd =>
      rw [wireMask_add (testBit_operandOffset_of_notMem hnodup hq), Nat.or_comm (Statevector.wireMask q), ← Nat.or_assoc,
        or_wireMask, decide_eq_true hodd]
    · next heven =>
      have hbit : (i ||| Statevector.operandOffset wires (x / 2)).testBit q = false := by
        rw [Nat.testBit_or, hi.1, testBit_operandOffset_of_notMem hnodup hq, Bool.or_false]
      rw [Nat.zero_add, decide_eq_false heven, setWire, if_pos hbit]

end Masks

end CircuitSynthesis
