import Mathlib
import CircuitSynthesis.GrayCode

/-!
# The walk along the Gray code

Consecutive codes differ in exactly one bit, the one at the number of trailing zeros of the later index
(`encode_xor_encode_succ`), and the last code of `k` bits differs from the first in its most significant bit alone
(`encode_two_pow_sub_one`). Each bit position has a walk of its own, whose moves add up to the bit (`sum_take_toggleWalk`)
and which moves where no other does (`getD_toggleWalk_ne_zero`). `getElem_controlLadder` shows that the ladder of
controls, which is assembled from these walks, lists exactly the bits that change: `encode_xor_encode_next` states the
closed walk. Flipping the bits of the ladder one after the other visits every code (`flipBits_take_controlLadder`) and
comes back to zero.
-/

namespace CircuitSynthesis.GrayCode

section Encode

/-- A bit of a code compares two neighbouring bits of the index. -/
lemma testBit_encode (i b : ℕ) : (encode i).testBit b = (i.testBit b ^^ i.testBit (b + 1)) := by
  rw [encode, Nat.testBit_xor, Nat.testBit_shiftRight, Nat.add_comm 1 b]

@[simp] lemma encode_zero : encode 0 = 0 := rfl

/-- Encoding preserves exclusive or. -/
lemma encode_xor (i j : ℕ) : encode (i ^^^ j) = encode i ^^^ encode j := by
  apply Nat.eq_of_testBit_eq
  intro b
  simp only [testBit_encode, Nat.testBit_xor, Bool.xor_assoc, Bool.xor_left_comm (j.testBit b)]

/-- Only zero has the code zero. -/
lemma encode_eq_zero {i : ℕ} (h : encode i = 0) : i = 0 := by
  have hhalf : i = i >>> 1 := Nat.xor_eq_zero_iff.1 h
  rw [Nat.shiftRight_one] at hhalf
  omega

/-- No two indices share a code. -/
lemma encode_injective : Function.Injective encode := by
  intro i j h
  apply Nat.xor_eq_zero_iff.1
  apply encode_eq_zero
  rw [encode_xor, h, Nat.xor_self]

/-- A code needs no more bits than its index. -/
lemma encode_lt {i k : ℕ} (hi : i < 2 ^ k) : encode i < 2 ^ k := by
  apply Nat.xor_lt_two_pow hi
  exact (Nat.shiftRight_le i 1).trans_lt hi

/-- The codes of the indices below `2 ^ k` are these indices in another order. -/
lemma map_encode_perm (k : ℕ) : ((List.range (2 ^ k)).map encode).Perm (List.range (2 ^ k)) := by
  have hsubset : (List.range (2 ^ k)).map encode ⊆ List.range (2 ^ k) := by
    intro code hcode
    obtain ⟨i, hi, rfl⟩ := List.mem_map.1 hcode
    exact List.mem_range.2 (encode_lt (List.mem_range.1 hi))
  apply ((List.nodup_range.map encode_injective).subperm hsubset).perm_of_length_le
  simp

/-- The low bit of a code compares the two low bits of the index. -/
lemma testBit_zero_encode_bit (c : Bool) (m : ℕ) : (encode (Nat.bit c m)).testBit 0 = (c ^^ m.testBit 0) := by
  rw [testBit_encode, Nat.testBit_bit_zero, Nat.testBit_bit_succ]

/-- The higher bits of a code form the code of the halved index. -/
lemma testBit_succ_encode_bit (c : Bool) (m b : ℕ) :
    (encode (Nat.bit c m)).testBit (b + 1) = (encode m).testBit b := by
  rw [testBit_encode, testBit_encode, Nat.testBit_bit_succ, Nat.testBit_bit_succ]

/-- Counting on flips the lowest bit. -/
lemma testBit_zero_succ (m : ℕ) : (m + 1).testBit 0 = !m.testBit 0 := by
  simp only [Nat.testBit_zero]
  grind

/-- Consecutive codes differ in one bit. -/
lemma encode_xor_encode_succ (j : ℕ) : encode j ^^^ encode (j + 1) = 2 ^ padicValNat 2 (j + 1) := by
  induction j using Nat.binaryRec' with
  | zero => simp [encode]
  | bit c m _ ih =>
    cases c
    case false =>
      -- the step sets the last bit of the index, and of the code that bit alone changes
      have hval : padicValNat 2 (Nat.bit false m + 1) = 0 :=
        padicValNat.eq_zero_of_not_dvd (by simp [Nat.bit])
      have hsucc : Nat.bit false m + 1 = Nat.bit true m := by simp [Nat.bit]
      rw [hval, hsucc, pow_zero]
      apply Nat.eq_of_testBit_eq
      rintro (_ | b)
      · rw [Nat.testBit_xor, testBit_zero_encode_bit, testBit_zero_encode_bit]
        cases m.testBit 0 <;> rfl
      · rw [Nat.testBit_xor, testBit_succ_encode_bit, testBit_succ_encode_bit, Bool.xor_self]
        exact (Nat.testBit_two_pow_of_ne (n := 0) (by omega)).symm
    case true =>
      -- the step carries: the last bit of the code keeps, the others take the step from `m`
      have hsucc : Nat.bit true m + 1 = Nat.bit false (m + 1) := by simp [Nat.bit]; omega
      have hval : padicValNat 2 (Nat.bit true m + 1) = padicValNat 2 (m + 1) + 1 := by
        have hmul : Nat.bit true m + 1 = 2 * (m + 1) := by simp [Nat.bit]; omega
        rw [hmul, padicValNat.mul (by decide) (by omega), padicValNat.self (by decide), add_comm]
      rw [hval, hsucc]
      apply Nat.eq_of_testBit_eq
      rintro (_ | b)
      · rw [Nat.testBit_xor, testBit_zero_encode_bit, testBit_zero_encode_bit, testBit_zero_succ, Nat.testBit_two_pow]
        cases m.testBit 0 <;> simp
      · rw [Nat.testBit_xor, testBit_succ_encode_bit, testBit_succ_encode_bit, ← Nat.testBit_xor, ih,
          Nat.testBit_two_pow, Nat.testBit_two_pow]
        simp

/-- A positive number below `2 ^ k` has fewer than `k` trailing zeros. -/
lemma padicValNat_lt_of_lt {j k : ℕ} (hj : j + 1 < 2 ^ k) : padicValNat 2 (j + 1) < k := by
  have hle : 2 ^ padicValNat 2 (j + 1) ≤ j + 1 := Nat.le_of_dvd (by omega) pow_padicValNat_dvd
  exact (Nat.pow_lt_pow_iff_right (by decide)).1 (hle.trans_lt hj)

/-- The last code of `k + 1` bits has its most significant bit alone. -/
lemma encode_two_pow_sub_one (k : ℕ) : encode (2 ^ (k + 1) - 1) = 2 ^ k := by
  apply Nat.eq_of_testBit_eq
  intro b
  rw [testBit_encode, Nat.testBit_two_pow_sub_one, Nat.testBit_two_pow_sub_one, Nat.testBit_two_pow]
  grind

end Encode

section SetBits

/-- The only bit of a power of two. -/
@[simp] lemma setBits_two_pow (k : ℕ) : setBits (2 ^ k) = [k] := by
  have hlow : (List.range k).filter (2 ^ k).testBit = [] := by
    rw [List.filter_eq_nil_iff]
    intro b hb
    have hne : b ≠ k := (List.mem_range.1 hb).ne
    simpa [Nat.testBit_two_pow] using hne.symm
  rw [setBits, Nat.log2_two_pow, List.range_succ, List.filter_append, hlow]
  simp [Nat.testBit_two_pow_self]

/-- The lowest bit of a power of two is the only one it has. -/
lemma lowestBit_two_pow (k : ℕ) : lowestBit (2 ^ k) = k := by
  rw [lowestBit, setBits_two_pow]
  rfl

/-- The last bit of a power of two is the only one it has. -/
lemma getLastD_setBits_two_pow (k d : ℕ) : (setBits (2 ^ k)).getLastD d = k := by
  rw [setBits_two_pow]
  rfl

end SetBits

section Toggles

variable {k p j : ℕ}

/-- A walk over `2 ^ k` codes has a step between any two that follow each other. -/
lemma length_toggleWalk (p k : ℕ) : (toggleWalk p (2 ^ k)).length = 2 ^ k - 1 := by
  rw [toggleWalk]
  split <;> simp

/-- Bit `b` of code `j` as a number. -/
def codeBit (b j : ℕ) : ℤ := if (encode j).testBit b then 1 else 0

/-- A bit of a code is zero or one. -/
lemma codeBit_eq_zero_or_one (b j : ℕ) : codeBit b j = 0 ∨ codeBit b j = 1 := by
  rw [codeBit]
  split
  case isTrue => exact .inr rfl
  case isFalse => exact .inl rfl

/-- A bit of two codes differs exactly if it is set where they differ. -/
lemma codeBit_sub_ne_zero_iff {b i : ℕ} : codeBit b j - codeBit b i ≠ 0 ↔ (encode i ^^^ encode j).testBit b = true := by
  rw [codeBit, codeBit, Nat.testBit_xor]
  cases (encode i).testBit b <;> cases (encode j).testBit b <;> decide

/-- Step `j` of the walk is the change of the bit from code `j` to the next. -/
lemma toggleWalk_eq_map (hp : 0 < p) (hpk : p ≤ k) :
    toggleWalk p (2 ^ k) = (List.range (2 ^ k - 1)).map fun j => codeBit (k - p) (j + 1) - codeBit (k - p) j := by
  rw [toggleWalk, Nat.max_eq_left Nat.one_le_two_pow, lowestBit_two_pow, if_pos ⟨hp, hpk⟩]
  rfl

/-- At a position that no code has the walk stands still. -/
lemma toggleWalk_eq_replicate (hp : p = 0 ∨ k < p) : toggleWalk p (2 ^ k) = List.replicate (2 ^ k - 1) 0 := by
  rw [toggleWalk, Nat.max_eq_left Nat.one_le_two_pow, lowestBit_two_pow, if_neg (by omega)]

/-- The walk of a bit moves where the number of trailing zeros picks that bit. -/
lemma getD_toggleWalk_ne_zero (hp : 0 < p) (hpk : p ≤ k) (hj : j < 2 ^ k - 1) :
    (toggleWalk p (2 ^ k)).getD j 0 ≠ 0 ↔ padicValNat 2 (j + 1) = k - p := by
  have hstep : (toggleWalk p (2 ^ k)).getD j 0 = codeBit (k - p) (j + 1) - codeBit (k - p) j := by
    rw [toggleWalk_eq_map hp hpk, List.getD_eq_getElem?_getD, List.getElem?_map, List.getElem?_range hj]
    rfl
  rw [hstep, codeBit_sub_ne_zero_iff, encode_xor_encode_succ, Nat.testBit_two_pow, decide_eq_true_eq]

/-- The first `j` steps of the walk lead from a cleared bit to the bit of code `j`. -/
lemma sum_take_toggleWalk (hp : 0 < p) (hpk : p ≤ k) (hj : j < 2 ^ k) :
    ((toggleWalk p (2 ^ k)).take j).sum = codeBit (k - p) j := by
  induction j with
  | zero => simp [codeBit]
  | succ j ih =>
    have hlt : j < (toggleWalk p (2 ^ k)).length := by
      rw [length_toggleWalk]
      omega
    rw [List.sum_take_succ _ _ hlt, ih (by omega)]
    simp only [toggleWalk_eq_map hp hpk, List.getElem_map, List.getElem_range]
    exact add_sub_cancel _ _

/-- A walk that never leaves 0 and 1 goes up and down in turns. -/
lemma getElem_filter_of_sums {walk : List ℤ} {start : ℤ} (hstart : start = 0 ∨ start = 1)
    (hsums : ∀ j ≤ walk.length, start + (walk.take j).sum = 0 ∨ start + (walk.take j).sum = 1) {i : ℕ}
    (hi : i < (walk.filter (· ≠ 0)).length) : (walk.filter (· ≠ 0))[i] = (1 - 2 * start) * (-1) ^ i := by
  -- `start` is the value before the walk; every move turns it over, and with it the sign of the next move
  induction walk generalizing start i with
  | nil => cases hi
  | cons t walk ih =>
    have hnext : start + t = 0 ∨ start + t = 1 := by simpa using hsums 1 (by simp)
    have hrest (j : ℕ) (hj : j ≤ walk.length) :
        start + t + (walk.take j).sum = 0 ∨ start + t + (walk.take j).sum = 1 := by
      simpa [add_assoc] using hsums (j + 1) (by simpa using hj)
    by_cases ht : t = 0
    case pos =>
      subst ht
      have hfilter : (0 :: walk).filter (· ≠ 0) = walk.filter (· ≠ 0) := List.filter_cons_of_neg (by simp)
      simp only [hfilter] at hi ⊢
      rw [add_zero] at hnext hrest
      exact ih hnext hrest hi
    case neg =>
      have hfilter : (t :: walk).filter (· ≠ 0) = t :: walk.filter (· ≠ 0) := List.filter_cons_of_pos (by simpa using ht)
      have hturn : t = 1 - 2 * start := by omega
      simp only [hfilter] at hi ⊢
      cases i with
      | zero => rw [List.getElem_cons_zero, hturn, pow_zero, mul_one]
      | succ i =>
        rw [List.getElem_cons_succ, ih hnext hrest (Nat.lt_of_succ_lt_succ hi), hturn]
        ring

/-- The moves of a position set its bit first, and then clear and set it in turns. -/
lemma getElem_filter_toggleWalk (hp : 0 < p) (hpk : p ≤ k) {i : ℕ}
    (hi : i < ((toggleWalk p (2 ^ k)).filter (· ≠ 0)).length) :
    ((toggleWalk p (2 ^ k)).filter (· ≠ 0))[i] = (-1) ^ i := by
  have hsums (j : ℕ) (hj : j ≤ (toggleWalk p (2 ^ k)).length) :
      0 + ((toggleWalk p (2 ^ k)).take j).sum = 0 ∨ 0 + ((toggleWalk p (2 ^ k)).take j).sum = 1 := by
    have hpos := Nat.two_pow_pos k
    rw [length_toggleWalk] at hj
    rw [zero_add, sum_take_toggleWalk hp hpk (by omega)]
    exact codeBit_eq_zero_or_one _ _
  simpa using getElem_filter_of_sums (.inl rfl) hsums hi

/-- At every step one position moves and no other. -/
lemma existsUnique_toggleWalk_ne_zero (hj : j < 2 ^ k - 1) :
    ∃! p, (1 ≤ p ∧ p ≤ k) ∧ (toggleWalk p (2 ^ k)).getD j 0 ≠ 0 := by
  have hval : padicValNat 2 (j + 1) < k := padicValNat_lt_of_lt (by omega)
  refine ⟨k - padicValNat 2 (j + 1), ⟨⟨by omega, by omega⟩, ?_⟩, ?_⟩
  case refine_1 =>
    rw [getD_toggleWalk_ne_zero (by omega) (by omega) hj]
    omega
  case refine_2 =>
    rintro p ⟨⟨hp, hpk⟩, hmoves⟩
    rw [getD_toggleWalk_ne_zero hp hpk hj] at hmoves
    omega

/-- The moves of a position add up to its bit in every code that has been reached, and hence set and clear the bit in
turns. A position outside the codes never moves, and at every step exactly one position does. -/
theorem toggleWalk_spec (k : ℕ) :
    (∀ p, 1 ≤ p → p ≤ k →
      (toggleWalk p (2 ^ k)).length = 2 ^ k - 1 ∧
      (∀ j < 2 ^ k, ((toggleWalk p (2 ^ k)).take j).sum = if (encode j).testBit (k - p) then 1 else 0) ∧
      ∀ i (hi : i < ((toggleWalk p (2 ^ k)).filter (· ≠ 0)).length),
        ((toggleWalk p (2 ^ k)).filter (· ≠ 0))[i] = (-1) ^ i) ∧
    (∀ p, p = 0 ∨ k < p → toggleWalk p (2 ^ k) = List.replicate (2 ^ k - 1) 0) ∧
    ∀ j < 2 ^ k - 1, ∃! p, (1 ≤ p ∧ p ≤ k) ∧ (toggleWalk p (2 ^ k)).getD j 0 ≠ 0 := by
  refine ⟨fun p hp hpk => ⟨length_toggleWalk p k, ?_, ?_⟩, fun p => toggleWalk_eq_replicate, ?_⟩
  case refine_1 => exact fun j => sum_take_toggleWalk hp hpk
  case refine_2 => exact fun i => getElem_filter_toggleWalk hp hpk
  case refine_3 => exact fun j => existsUnique_toggleWalk_ne_zero

/-- The walk of the lowest of three bits, a position that no code has, and the sixth step of all three walks. -/
theorem toggleWalk_spec_lowestOfThree :
    toggleWalk 3 (2 ^ 3) = [1, 0, -1, 0, 1, 0, -1] ∧
    (1 ≤ 3 ∧ 3 ≤ 3 ∧ 5 < 2 ^ 3 ∧
      ((toggleWalk 3 (2 ^ 3)).take 5).sum = if (encode 5).testBit (3 - 3) then 1 else 0) ∧
    (3 < 4 ∧ toggleWalk 4 (2 ^ 3) = List.replicate (2 ^ 3 - 1) 0) ∧
    5 < 2 ^ 3 - 1 ∧ ∃! p, (1 ≤ p ∧ p ≤ 3) ∧ (toggleWalk p (2 ^ 3)).getD 5 0 ≠ 0 := by
  obtain ⟨hwalk, houtside, hmoves⟩ := toggleWalk_spec 3
  have hsum := (hwalk 3 (by decide) le_rfl).2.1 5 (by decide)
  exact ⟨by decide, ⟨by decide, le_rfl, by decide, hsum⟩, ⟨by decide, houtside 4 (.inr (by decide))⟩,
    by decide, hmoves 5 (by decide)⟩

end Toggles

section Ladder

/-- Marking toggles keeps the length of the ladder. -/
lemma length_markToggles (bit : ℕ) (walk : List ℤ) (ladder : List ℕ) :
    (markToggles bit walk ladder).length = ladder.length := by
  induction walk generalizing ladder with
  | nil => rfl
  | cons t walk ih =>
    cases ladder with
    | nil => rfl
    | cons b ladder => simp [markToggles, ih]

/-- Marking writes the bit at the steps where the walk moves. -/
lemma getElem?_markToggles (bit : ℕ) (walk : List ℤ) (ladder : List ℕ) (j : ℕ) :
    (markToggles bit walk ladder)[j]? = (ladder[j]?).map fun b => if walk.getD j 0 ≠ 0 then bit else b := by
  induction walk generalizing ladder j with
  | nil => simp [markToggles]
  | cons t walk ih =>
    cases ladder with
    | nil => rfl
    | cons b ladder =>
      cases j with
      | zero => simp [markToggles]
      | succ j => simp [markToggles, ih]

/-- The ladder once the walks of the first `count` bit positions are marked on it. -/
lemma getElem?_foldl_markToggles {k count : ℕ} (hcount : count ≤ k) (closing j : ℕ) (hj : j < 2 ^ k) :
    ((List.range count).foldl (fun ladder p => markToggles (k - (p + 1)) (toggleWalk (p + 1) (2 ^ k)) ladder)
      (List.replicate (2 ^ k) closing))[j]? =
      some (if j < 2 ^ k - 1 ∧ k ≤ padicValNat 2 (j + 1) + count then padicValNat 2 (j + 1) else closing) := by
  induction count with
  | zero =>
    have hval (h : j < 2 ^ k - 1) : padicValNat 2 (j + 1) < k := padicValNat_lt_of_lt (by omega)
    simp only [List.range_zero, List.foldl_nil, List.getElem?_replicate, hj, if_true, Nat.add_zero]
    rw [if_neg fun h => absurd (hval h.1) (by omega)]
  | succ count ih =>
    rw [List.range_succ, List.foldl_append, List.foldl_cons, List.foldl_nil, getElem?_markToggles, ih (by omega),
      Option.map_some]
    by_cases hlast : j < 2 ^ k - 1
    case pos =>
      simp only [getD_toggleWalk_ne_zero (Nat.succ_pos count) hcount hlast, hlast, true_and]
      congr 1
      split_ifs <;> omega
    case neg =>
      have hend : (toggleWalk (count + 1) (2 ^ k)).getD j 0 = 0 := by
        rw [List.getD_eq_getElem?_getD, List.getElem?_eq_none (by rw [length_toggleWalk]; omega), Option.getD_none]
      rw [if_neg (not_not.2 hend), if_neg fun h => hlast h.1, if_neg fun h => hlast h.1]

variable {k j : ℕ}

/-- Step `j` of the ladder flips the bit at the number of trailing zeros of `j + 1`; the last one closes the walk. -/
lemma getElem?_controlLadder (hj : j < 2 ^ (k + 1)) :
    (controlLadder (k + 1))[j]? = some (min (padicValNat 2 (j + 1)) k) := by
  rw [controlLadder, if_neg (by omega)]
  simp only [encode_two_pow_sub_one, getLastD_setBits_two_pow]
  rw [getElem?_foldl_markToggles le_rfl _ _ hj]
  congr 1
  by_cases hlast : j < 2 ^ (k + 1) - 1
  case pos =>
    have hval : padicValNat 2 (j + 1) < k + 1 := padicValNat_lt_of_lt (by omega)
    rw [if_pos ⟨hlast, by omega⟩]
    omega
  case neg =>
    have hval : padicValNat 2 (j + 1) = k + 1 := by
      rw [show j + 1 = 2 ^ (k + 1) by omega, padicValNat.prime_pow]
    rw [if_neg (by omega), hval]
    omega

/-- A ladder has a place for each code. -/
@[simp] lemma length_controlLadder (k : ℕ) : (controlLadder (k + 1)).length = 2 ^ (k + 1) := by
  have hfold (mark : ℕ → ℕ) (walk : ℕ → List ℤ) (positions ladder : List ℕ) :
      (positions.foldl (fun ladder p => markToggles (mark p) (walk p) ladder) ladder).length = ladder.length := by
    induction positions generalizing ladder with
    | nil => rfl
    | cons p positions ih => rw [List.foldl_cons, ih, length_markToggles]
  rw [controlLadder, if_neg (by omega), hfold (fun p => k + 1 - (p + 1)), List.length_replicate]

/-- A place of the ladder holds the number of trailing zeros of the next index, but for the last place. -/
lemma getElem_controlLadder (hj : j < (controlLadder (k + 1)).length) :
    (controlLadder (k + 1))[j] = min (padicValNat 2 (j + 1)) k :=
  List.getElem_eq_iff _ |>.2 (getElem?_controlLadder (by simpa using hj))

/-- The closed walk: each step of the ladder flips one bit of the code, and after the last step the code is zero again. -/
lemma encode_xor_encode_next (hj : j < 2 ^ (k + 1)) :
    encode j ^^^ encode ((j + 1) % 2 ^ (k + 1)) = 2 ^ min (padicValNat 2 (j + 1)) k := by
  by_cases hlast : j + 1 < 2 ^ (k + 1)
  case pos =>
    have hval : padicValNat 2 (j + 1) < k + 1 := padicValNat_lt_of_lt hlast
    rw [Nat.mod_eq_of_lt hlast, encode_xor_encode_succ, Nat.min_eq_left (by omega)]
  case neg =>
    have hj' : j = 2 ^ (k + 1) - 1 := by omega
    have hval : padicValNat 2 (j + 1) = k + 1 := by
      rw [show j + 1 = 2 ^ (k + 1) by omega, padicValNat.prime_pow]
    rw [hval, Nat.min_eq_right (by omega), show j + 1 = 2 ^ (k + 1) by omega, Nat.mod_self, encode_zero, hj',
      encode_two_pow_sub_one, Nat.xor_zero]

end Ladder

section Walk

variable {k : ℕ}

/-- The code that is reached by flipping the listed bits one after the other. -/
def flipBits (bits : List ℕ) (code : ℕ) : ℕ := bits.foldl (fun code b => code ^^^ 1 <<< b) code

/-- A bit has changed where it is listed an odd number of times. -/
lemma testBit_flipBits (bits : List ℕ) (code b : ℕ) :
    (flipBits bits code).testBit b = (code.testBit b ^^ decide (Odd (bits.count b))) := by
  induction bits generalizing code with
  | nil => simp [flipBits]
  | cons a bits ih =>
    change (flipBits bits (code ^^^ 1 <<< a)).testBit b = _
    rw [ih, Nat.testBit_xor, Nat.one_shiftLeft, Nat.testBit_two_pow, List.count_cons]
    by_cases hab : a = b
    case pos =>
      subst hab
      by_cases hodd : Odd (bits.count a) <;> simp [hodd, Nat.odd_add_one, -Nat.not_odd_iff_even]
    case neg => simp [hab]

/-- Flipping the first `j` bits of the ladder leads to code `j`, and all of them lead back to zero. -/
lemma flipBits_take_controlLadder {j : ℕ} (hj : j ≤ 2 ^ (k + 1)) :
    flipBits ((controlLadder (k + 1)).take j) 0 = encode (j % 2 ^ (k + 1)) := by
  induction j with
  | zero => simp [flipBits]
  | succ j ih =>
    have hlt : j < (controlLadder (k + 1)).length := by simpa using hj
    have hstep := encode_xor_encode_next (k := k) hj
    have hhere : flipBits ((controlLadder (k + 1)).take j) 0 = encode j := by
      rw [ih (by omega), Nat.mod_eq_of_lt hj]
    rw [← List.take_concat_get' _ _ hlt, flipBits, List.foldl_append]
    change flipBits ((controlLadder (k + 1)).take j) 0 ^^^ 1 <<< (controlLadder (k + 1))[j] = _
    rw [hhere, getElem_controlLadder, Nat.one_shiftLeft, ← hstep, Nat.xor_xor_cancel_left]

/-- The walk is closed, so that every bit is flipped back as often as it is flipped. -/
lemma even_count_controlLadder (k b : ℕ) : Even ((controlLadder (k + 1)).count b) := by
  have hclosed : flipBits (controlLadder (k + 1)) 0 = 0 := by
    have h := flipBits_take_controlLadder (k := k) le_rfl
    rwa [Nat.mod_self, List.take_of_length_le (length_controlLadder k).le] at h
  have hbit := testBit_flipBits (controlLadder (k + 1)) 0 b
  rw [hclosed] at hbit
  simpa using hbit

/-- The codes are a permutation of the indices, and the ladder walks through all of them: step `j` names the one bit in
which code `j` differs from the next one, cyclically. -/
theorem controlLadder_closed_walk (k : ℕ) :
    ((List.range (2 ^ (k + 1))).map encode).Perm (List.range (2 ^ (k + 1))) ∧
    (controlLadder (k + 1)).length = 2 ^ (k + 1) ∧
    (∀ j (hj : j < (controlLadder (k + 1)).length),
      setBits (encode j ^^^ encode ((j + 1) % 2 ^ (k + 1))) = [(controlLadder (k + 1))[j]] ∧
      (controlLadder (k + 1))[j] = min (padicValNat 2 (j + 1)) k) ∧
    (∀ b, Even ((controlLadder (k + 1)).count b)) ∧
    ∀ j < 2 ^ (k + 1), flipBits ((controlLadder (k + 1)).take j) 0 = encode j := by
  refine ⟨map_encode_perm (k + 1), length_controlLadder k, ?_, even_count_controlLadder k, ?_⟩
  case refine_1 =>
    intro j hj
    have hlt : j < 2 ^ (k + 1) := length_controlLadder k ▸ hj
    refine ⟨?_, getElem_controlLadder hj⟩
    rw [encode_xor_encode_next hlt, setBits_two_pow, getElem_controlLadder]
  case refine_2 =>
    intro j hj
    rw [flipBits_take_controlLadder hj.le, Nat.mod_eq_of_lt hj]

/-- The walk over two bits changes the high one in its last step, which leads back to the start. -/
theorem controlLadder_closed_walk_pair : 3 < (controlLadder 2).length ∧ setBits (encode 3 ^^^ encode 0) = [1] ∧
    flipBits ((controlLadder 2).take 3) 0 = 2 := by
  obtain ⟨-, hlength, hstep, -, hwalk⟩ := controlLadder_closed_walk 1
  have hlast : 3 < (controlLadder 2).length := by
    rw [hlength]
    decide
  obtain ⟨hbit, hcontrol⟩ := hstep 3 hlast
  rw [hcontrol] at hbit
  have hval : min (padicValNat 2 (3 + 1)) 1 = 1 := by
    have hle : 1 ≤ padicValNat 2 (3 + 1) := one_le_padicValNat_of_dvd (by decide) (by decide)
    omega
  rw [hval] at hbit
  exact ⟨hlast, hbit, hwalk 3 (by decide)⟩

end Walk

end CircuitSynthesis.GrayCode
