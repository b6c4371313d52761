import Mathlib
import CircuitSynthesis.Proofs.Numerals

/-!
# Operators on one wire of a register

Wire `q` of a register is bit `q` of a basis index. `setWire` replaces one bit, `field` reads consecutive ones.
`wireOperator` is the operator that applies to one wire a matrix which may depend on the other wires: controlled gates
and multiplexed rotations are of this form as much as gates on one wire. `wireOperator_mul` says that such operators on
one wire are multiplied by multiplying their matrices for each value of the other wires.
-/

namespace CircuitSynthesis

open Matrix

section Bits

/-- The index with the bit of wire `q` replaced. -/
def setWire (q : ℕ) (b : Bool) (i : ℕ) : ℕ := if i.testBit q = b then i else i ^^^ 2 ^ q

/-- The value of the `m` wires from `lo` on. -/
def field (lo m i : ℕ) : ℕ := i / 2 ^ lo % 2 ^ m

variable {q lo m n i j : ℕ} {b c : Bool}

/-- Replacing a bit leaves the others. -/
@[simp] lemma testBit_setWire (q p : ℕ) (b : Bool) (i : ℕ) :
    (setWire q b i).testBit p = if p = q then b else i.testBit p := by
  rw [setWire]
  split_ifs with hb hp hp
  · rw [hp, hb]
  · rfl
  · rw [hp, Nat.testBit_xor, Nat.testBit_two_pow_self]
    cases b <;> simp_all
  · rw [Nat.testBit_xor, Nat.testBit_two_pow_of_ne (Ne.symm hp), Bool.xor_false]

/-- Replacing a bit within the register stays within it. -/
lemma setWire_lt (hq : q < n) (hi : i < 2 ^ n) : setWire q b i < 2 ^ n := by
  rw [setWire]
  split
  · exact hi
  · exact Nat.xor_lt_two_pow hi (Nat.pow_lt_pow_right (by decide) hq)

/-- The last replacement of a bit counts. -/
@[simp] lemma setWire_setWire : setWire q b (setWire q c i) = setWire q b i := by
  apply Nat.eq_of_testBit_eq
  intro p
  simp only [testBit_setWire]
  split <;> rfl

/-- A bit replaced by itself changes nothing. -/
lemma setWire_testBit_self : setWire q (i.testBit q) i = i := by
  rw [setWire, if_pos rfl]

/-- Two indices agree outside a wire if and only if one is the other with the bit of that wire replaced. -/
lemma setWire_eq_setWire_iff : setWire q c i = setWire q c j ↔ j = setWire q (j.testBit q) i := by
  constructor
  · intro h
    calc j = setWire q (j.testBit q) (setWire q c j) := by rw [setWire_setWire, setWire_testBit_self]
      _ = setWire q (j.testBit q) i := by rw [← h, setWire_setWire]
  · intro h
    rw [h, setWire_setWire]

/-- Bits of different wires may be replaced in either order. -/
lemma setWire_comm {p : ℕ} (hpq : p ≠ q) : setWire p b (setWire q c i) = setWire q c (setWire p b i) := by
  apply Nat.eq_of_testBit_eq
  intro r
  simp only [testBit_setWire]
  by_cases hp : r = p
  · rw [if_pos hp, if_pos hp, if_neg (hp ▸ hpq)]
  · rw [if_neg hp, if_neg hp]

/-- Indices that agree in a bit and everywhere else are equal. -/
lemma eq_of_setWire_eq (h : setWire q c i = setWire q c j) (hbit : i.testBit q = j.testBit q) : i = j := by
  rw [setWire_eq_setWire_iff, ← hbit, setWire_testBit_self] at h
  exact h.symm

/-- The bits of a field are those of the index, moved down. -/
@[simp] lemma testBit_field (lo m i b : ℕ) : (field lo m i).testBit b = (decide (b < m) && i.testBit (lo + b)) := by
  rw [field, Nat.testBit_mod_two_pow, Nat.testBit_div_two_pow, Nat.add_comm lo b]

/-- The value of a field has as many bits as the field has wires. -/
lemma field_lt (lo m i : ℕ) : field lo m i < 2 ^ m := Nat.mod_lt _ (Nat.two_pow_pos m)

/-- A field does not see the wires outside it. -/
lemma field_setWire (h : q < lo ∨ lo + m ≤ q) : field lo m (setWire q b i) = field lo m i := by
  apply Nat.eq_of_testBit_eq
  intro p
  simp only [testBit_field, testBit_setWire]
  by_cases hp : p < m
  · rw [if_neg (by omega)]
  · simp [hp]

/-- The lowest wire of a field is its lowest bit. -/
lemma field_succ (lo m i : ℕ) : field lo (m + 1) i = Nat.bit (i.testBit lo) (field (lo + 1) m i) := by
  apply Nat.eq_of_testBit_eq
  rintro (_ | p)
  · rw [Nat.testBit_bit_zero, testBit_field]
    simp
  · rw [Nat.testBit_bit_succ, testBit_field, testBit_field, Nat.add_assoc lo 1 p, Nat.add_comm 1 p]
    simp

end Bits

section WireOperator

variable {n q : ℕ}

/-- The basis index with the bit of a wire of the register replaced. -/
def setWireFin (hq : q < n) (b : Bool) (i : Fin (2 ^ n)) : Fin (2 ^ n) := ⟨setWire q b i, setWire_lt hq i.isLt⟩

/-- Within the register too, replacing a bit leaves the others. -/
@[simp] lemma testBit_setWireFin (hq : q < n) (b : Bool) (i : Fin (2 ^ n)) (p : ℕ) :
    (setWireFin hq b i).val.testBit p = if p = q then b else i.val.testBit p := testBit_setWire q p b i

/-- Within the register too, the last replacement of a bit counts. -/
@[simp] lemma setWireFin_setWireFin (hq : q < n) (b c : Bool) (i : Fin (2 ^ n)) :
    setWireFin hq b (setWireFin hq c i) = setWireFin hq b i := Fin.ext setWire_setWire

/-- Within the register too, a bit replaced by itself changes nothing. -/
lemma setWireFin_testBit_self (hq : q < n) (i : Fin (2 ^ n)) : setWireFin hq (i.val.testBit q) i = i :=
  Fin.ext setWire_testBit_self

/-- Whether a family does not depend on wire `q`. -/
def Ignores {α : Type} (q : ℕ) (M : ℕ → α) : Prop := ∀ b i, M (setWire q b i) = M i

/-- The operator that applies `M i` to wire `q` of a register of `n` wires where the other wires read as in `i`. -/
def wireOperator (n q : ℕ) (M : ℕ → Matrix Bool Bool ℂ) : Matrix (Fin (2 ^ n)) (Fin (2 ^ n)) ℂ :=
  fun i j => if setWire q false i = setWire q false j then M i (i.val.testBit q) (j.val.testBit q) else 0

/-- Entry by entry, an operator on a wire compares the other wires. -/
lemma wireOperator_apply (M : ℕ → Matrix Bool Bool ℂ) (i j : Fin (2 ^ n)) :
    wireOperator n q M i j =
      if setWire q false i = setWire q false j then M i (i.val.testBit q) (j.val.testBit q) else 0 := rfl

/-- A family that ignores a wire agrees on indices that agree elsewhere. -/
lemma Ignores.eq_of_setWire_eq {α : Type} {M : ℕ → α} (hM : Ignores q M) {b : Bool} {i j : ℕ}
    (h : setWire q b i = setWire q b j) : M i = M j := by
  rw [← hM b i, h, hM b j]

/-- A sum over the indices that agree with `i` outside wire `q` has two terms. -/
lemma sum_setWire_eq {β : Type} [AddCommMonoid β] (hq : q < n) (i : Fin (2 ^ n)) (f : Fin (2 ^ n) → β) :
    ∑ j : Fin (2 ^ n), (if setWire q false i = setWire q false j then f j else 0) =
      f (setWireFin hq true i) + f (setWireFin hq false i) := by
  have hpair : (Finset.univ.filter fun j : Fin (2 ^ n) => setWire q false i = setWire q false j) =
      {setWireFin hq true i, setWireFin hq false i} := by
    ext j
    simp only [Finset.mem_filter, Finset.mem_univ, true_and, Finset.mem_insert, Finset.mem_singleton,
      setWire_eq_setWire_iff, Fin.ext_iff, setWireFin]
    constructor
    · intro h
      cases hb : j.val.testBit q <;> rw [hb] at h
      · exact .inr h
      · exact .inl h
    · rintro (h | h) <;> rw [h, testBit_setWire, if_pos rfl]
  have hne : setWireFin hq true i ≠ setWireFin hq false i := by
    intro h
    have hbit := congrArg (Nat.testBit · q) (Fin.ext_iff.1 h)
    simp [setWireFin] at hbit
  rw [← Finset.sum_filter, hpair, Finset.sum_pair hne]

/-- An operator on a wire mixes the two amplitudes that differ there. -/
lemma wireOperator_mulVec (hq : q < n) (M : ℕ → Matrix Bool Bool ℂ) (ψ : Fin (2 ^ n) → ℂ) (i : Fin (2 ^ n)) :
    (wireOperator n q M *ᵥ ψ) i =
      M i (i.val.testBit q) true * ψ (setWireFin hq true i) + M i (i.val.testBit q) false * ψ (setWireFin hq false i) := by
  have hterm (j : Fin (2 ^ n)) : wireOperator n q M i j * ψ j =
      if setWire q false i = setWire q false j then M i (i.val.testBit q) (j.val.testBit q) * ψ j else 0 := by
    rw [wireOperator_apply, ite_mul, zero_mul]
  rw [mulVec, dotProduct, Finset.sum_congr rfl fun j _ => hterm j, sum_setWire_eq hq]
  simp [setWireFin]

/-- Operators on one wire are multiplied for each value of the other wires. -/
lemma wireOperator_mul (hq : q < n) (M N : ℕ → Matrix Bool Bool ℂ) (hN : Ignores q N) :
    wireOperator n q M * wireOperator n q N = wireOperator n q fun i => M i * N i := by
  ext i j
  have hcol : (wireOperator n q M * wireOperator n q N) i j =
      (wireOperator n q M *ᵥ fun k => wireOperator n q N k j) i := rfl
  rw [hcol, wireOperator_mulVec hq]
  simp only [wireOperator_apply, setWireFin, setWire_setWire, hN _ _, testBit_setWire, if_true]
  split
  · rw [Matrix.mul_apply, Fintype.sum_bool]
  · rw [mul_zero, mul_zero, add_zero]

/-- Operators on different wires that do not look at each other's wire commute. -/
lemma wireOperator_comm {p : ℕ} (hp : p < n) (hq : q < n) (hpq : p ≠ q) {M N : ℕ → Matrix Bool Bool ℂ}
    (hM : Ignores q M) (hN : Ignores p N) :
    wireOperator n p M * wireOperator n q N = wireOperator n q N * wireOperator n p M := by
  have hswap (b c : Bool) (i : Fin (2 ^ n)) :
      setWireFin hq c (setWireFin hp b i) = setWireFin hp b (setWireFin hq c i) := Fin.ext (setWire_comm hpq.symm)
  have hM' (b : Bool) (i : Fin (2 ^ n)) : M (setWireFin hq b i) = M i := hM b i
  have hN' (b : Bool) (i : Fin (2 ^ n)) : N (setWireFin hp b i) = N i := hN b i
  apply Matrix.mulVec_injective
  funext ψ i
  simp only [← mulVec_mulVec, wireOperator_mulVec hp, wireOperator_mulVec hq, hM', hN', hswap, testBit_setWireFin,
    if_neg hpq, if_neg hpq.symm]
  ring

/-- Where every matrix is diagonal, so is the operator. -/
lemma wireOperator_diagonal (d : ℕ → Bool → ℂ) :
    wireOperator n q (fun i => diagonal (d i)) = diagonal fun i : Fin (2 ^ n) => d i (i.val.testBit q) := by
  ext i j
  rw [wireOperator_apply, diagonal_apply, diagonal_apply]
  by_cases hij : i = j
  · rw [hij, if_pos rfl, if_pos rfl, if_pos rfl]
  · rw [if_neg hij]
    split_ifs with hagree hbit
    · exact absurd (Fin.ext (eq_of_setWire_eq hagree hbit)) hij
    · rfl
    · rfl

/-- An operator that does nothing to its wire is the identity. -/
lemma wireOperator_one : wireOperator n q (fun _ => 1) = 1 := by
  simp only [← diagonal_one]
  exact wireOperator_diagonal fun _ _ => 1

/-- A scalar may be taken out of an operator on a wire. -/
lemma wireOperator_smul (z : ℂ) (M : ℕ → Matrix Bool Bool ℂ) :
    wireOperator n q (fun i => z • M i) = z • wireOperator n q M := by
  ext i j
  rw [Matrix.smul_apply, wireOperator_apply, wireOperator_apply, smul_ite, smul_zero]
  rfl

/-- The adjoint of an operator on a wire has the adjoint blocks. -/
lemma wireOperator_conjTranspose (M : ℕ → Matrix Bool Bool ℂ) (hM : Ignores q M) :
    (wireOperator n q M)ᴴ = wireOperator n q fun i => (M i)ᴴ := by
  ext i j
  rw [conjTranspose_apply, wireOperator_apply, wireOperator_apply]
  by_cases hagree : setWire q false i.val = setWire q false j.val
  · rw [if_pos hagree, if_pos hagree.symm, hM.eq_of_setWire_eq hagree, conjTranspose_apply]
  · rw [if_neg hagree, if_neg (Ne.symm hagree), star_zero]

/-- An operator on a wire only depends on the blocks of the register. -/
lemma wireOperator_congr {M N : ℕ → Matrix Bool Bool ℂ} (h : ∀ i < 2 ^ n, M i = N i) :
    wireOperator n q M = wireOperator n q N := by
  ext i j
  rw [wireOperator_apply, wireOperator_apply, h i i.isLt]

end WireOperator

end CircuitSynthesis
