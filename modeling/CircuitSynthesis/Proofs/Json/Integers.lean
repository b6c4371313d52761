import Mathlib
import CircuitSynthesis.Json.Number

/-!
# Reading integers

A natural number of at most 64 bits is read back from its digits. The digits do not begin with a superfluous zero, and no
digit on the way takes the significand beyond 64 bits.
-/

namespace CircuitSynthesis.Json.Numeral

variable {R : Type} [Scalar R] [DecimalText R]

/-- Only the digit zero is written as a zero. -/
lemma digitChar_eq_zero_iff {d : ℕ} (hd : d < 10) : d.digitChar = '0' ↔ d = 0 := by
  interval_cases d <;> decide

/-- Only zero begins with a zero. -/
lemma eq_zero_of_head_toDigits {n : ℕ} (h : (Nat.toDigits 10 n).head? = some '0') : n = 0 := by
  induction n using Nat.strong_induction_on with
  | _ n ih =>
    rcases Nat.lt_or_ge n 10 with hn | hn
    · rw [Nat.toDigits_of_lt_base hn, List.head?_cons, Option.some_inj] at h
      exact (digitChar_eq_zero_iff hn).1 h
    · rw [Nat.toDigits_of_base_le (by decide) hn, List.head?_append_of_ne_nil _ (Nat.toDigits_ne_nil)] at h
      have hzero := ih (n / 10) (Nat.div_lt_self (by omega) (by decide)) h
      omega

/-- The digits of a number begin with a zero only if there is no other digit. -/
lemma toDigits_ne_zero_cons (n : ℕ) (c : Char) (cs : List Char) : Nat.toDigits 10 n ≠ '0' :: c :: cs := by
  intro h
  have hzero : n = 0 := eq_zero_of_head_toDigits (by rw [h, List.head?_cons])
  rw [hzero, Nat.toDigits_zero] at h
  cases h

/-- Digits are read up to the first character that is none. -/
lemma digits?_append {digits rest : List Char} (hne : digits ≠ []) (hdigits : ∀ c ∈ digits, c.isDigit = true)
    (hrest : ∀ c ∈ rest.head?, c.isDigit = false) : digits? (digits ++ rest) = some (digits, rest) := by
  have hstop : rest.takeWhile Char.isDigit = [] ∧ rest.dropWhile Char.isDigit = rest := by
    cases rest with
    | nil => exact ⟨rfl, rfl⟩
    | cons c rest =>
      have hc := hrest c rfl
      exact ⟨List.takeWhile_cons_of_neg (by simp [hc]), List.dropWhile_cons_of_neg (by simp [hc])⟩
  have hspan : (digits ++ rest).span Char.isDigit = (digits, rest) := by
    rw [List.span_eq_takeWhile_dropWhile, List.takeWhile_append_of_pos hdigits, List.dropWhile_append_of_pos hdigits,
      hstop.1, hstop.2, List.append_nil]
  rw [digits?, hspan]
  split
  case h_1 heq => exact absurd (Prod.mk.inj heq).1 hne
  case h_2 => rfl

/-- Reading more digits never makes a number smaller. -/
lemma le_foldl_digits (s : ℕ) (digits : List Char) : s ≤ digits.foldl (fun n c => n * 10 + digitValue c) s := by
  induction digits generalizing s with
  | nil => rfl
  | cons c digits ih => exact (by omega : s ≤ s * 10 + digitValue c).trans (ih _)

/-- Digits whose value has 64 bits are all taken into the significand. -/
lemma absorb_eq {s : ℕ} {digits : List Char} (h : digits.foldl (fun n c => n * 10 + digitValue c) s < 2 ^ 64) :
    absorb s digits = (digits.foldl (fun n c => n * 10 + digitValue c) s, []) := by
  induction digits generalizing s with
  | nil => rfl
  | cons c digits ih =>
    have hnext : s * 10 + digitValue c < 2 ^ 64 := (le_foldl_digits _ digits).trans_lt h
    rw [absorb, if_pos hnext]
    exact ih h

/-- The digits of a number are read back as the number. -/
lemma foldl_toDigits (n : ℕ) : (Nat.toDigits 10 n).foldl (fun n c => n * 10 + digitValue c) 0 = n := by
  calc (Nat.toDigits 10 n).foldl (fun n c => n * 10 + digitValue c) 0
      = Nat.ofDigitChars 10 (Nat.toDigits 10 n) 0 := by simp only [Nat.ofDigitChars, digitValue, Nat.mul_comm]
    _ = n := Nat.ofDigitChars_toDigits (by decide) (by decide)

/-- Whether what follows a number does not continue it. -/
def Ends (rest : List Char) : Prop := ∀ c ∈ rest.head?, c.isDigit = false ∧ c ≠ '.' ∧ c ≠ 'e' ∧ c ≠ 'E'

/-- A number that ends has no decimal places. -/
lemma places?_of_ends {rest : List Char} (h : Ends rest) : places? rest = some (none, rest) := by
  rw [places?.eq_def]
  split
  case h_1 => exact absurd rfl (h _ rfl).2.1
  case h_2 => rfl

/-- A number that ends has no exponent. -/
lemma exponent?_of_ends {rest : List Char} (h : Ends rest) : exponent? rest = some (none, rest) := by
  cases rest with
  | nil => rfl
  | cons c rest =>
    obtain ⟨-, -, he, hE⟩ := h c rfl
    simp [exponent?, he, hE]

/-- The sign in front of a number, if it has one. -/
def signText (negative : Bool) : List Char := if negative then ['-'] else []

/-- A sign and the digits of a number are read as a numeral without decimals and exponent. -/
lemma read?_toDigits (negative : Bool) (n : ℕ) {rest : List Char} (h : Ends rest) :
    read? (signText negative ++ (Nat.toDigits 10 n ++ rest)) =
      some (⟨negative, Nat.toDigits 10 n, none, none⟩, rest) := by
  have hne : Nat.toDigits 10 n ≠ [] := Nat.toDigits_ne_nil
  have hdigit : ∀ c ∈ Nat.toDigits 10 n, c.isDigit = true :=
    fun c => Nat.isDigit_of_mem_toDigits (by decide) (by decide)
  have hdigits := digits?_append hne hdigit (fun c hc => (h c hc).1)
  have hlead := toDigits_ne_zero_cons n
  -- From here on it only counts that the digits begin with no minus sign and no superfluous zero.
  generalize Nat.toDigits 10 n = digits at hne hdigit hdigits hlead
  cases negative with
  | true => simp [signText, read?, hdigits, places?_of_ends h, exponent?_of_ends h]
  | false =>
    have hminus : ∀ cs, digits ++ rest ≠ '-' :: cs := by
      intro cs heq
      obtain ⟨c, digits, rfl⟩ := List.exists_cons_of_ne_nil hne
      obtain rfl : c = '-' := (List.cons.inj heq).1
      exact absurd (hdigit '-' List.mem_cons_self) (by decide)
    simp [signText, read?, hdigits, places?_of_ends h, exponent?_of_ends h]

/-- An integer of 64 bits is read from its sign and its digits. -/
lemma value?_toDigits {i : ℤ} (hlow : -2 ^ 63 ≤ i) (hhigh : i < 2 ^ 64) :
    value? (R := R) ⟨i < 0, Nat.toDigits 10 i.natAbs, none, none⟩ = some (int i) := by
  have habsorb : absorb 0 (Nat.toDigits 10 i.natAbs) = (i.natAbs, []) := by
    have hvalue := foldl_toDigits i.natAbs
    rw [absorb_eq (hvalue.symm ▸ (by omega : i.natAbs < 2 ^ 64)), hvalue]
  rcases lt_or_ge i 0 with hneg | hpos
  · have hsize : 0 < i.natAbs ∧ i.natAbs ≤ 2 ^ 63 := by omega
    have habs : -(i.natAbs : ℤ) = i := by omega
    simp only [value?, habsorb, hneg, decide_true, Bool.not_true, Bool.false_eq_true, if_false, if_pos hsize, habs]
  · have habs : (i.natAbs : ℤ) = i := Int.natAbs_of_nonneg hpos
    simp [value?, habsorb, hpos.not_gt, habs]

/-- An integer is written as its sign and the digits of its absolute value. -/
lemma toList_toString_int (i : ℤ) : (toString i).toList = signText (i < 0) ++ Nat.toDigits 10 i.natAbs := by
  cases i with
  | ofNat n =>
    have hsign : ¬ Int.ofNat n < 0 := by simp
    simp only [signText, hsign, decide_false, Bool.false_eq_true, if_false, List.nil_append]
    exact Nat.toList_repr
  | negSucc n =>
    show ("-" ++ Nat.repr (n + 1)).toList = _
    rw [String.toList_append, Nat.toList_repr]
    simp [signText]

end CircuitSynthesis.Json.Numeral
