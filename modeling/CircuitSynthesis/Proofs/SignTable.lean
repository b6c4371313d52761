import Mathlib
import CircuitSynthesis.SignTable
import CircuitSynthesis.Proofs.Exact.Dense
import CircuitSynthesis.Proofs.Exact.Scalar
import CircuitSynthesis.Proofs.GrayCode

/-!
# Solving with the sign table

The signs of a multiplexed rotation form a Walsh matrix with its columns in Gray order. A sign is a product over the
control bits (`walshSign_eq_prod`), and a sum over all codes of a product over bits factors into a product of sums
(`sum_prod_encode`), which makes the rows of the matrix orthogonal (`sum_walshSign_mul_walshSign`). Hence the stored
inverse is one on both sides, and it gives the only angles that combine to those that were asked for
(`SignTable.signs_mulVec_eq_iff`). The check multiplies by the difference operator, which is assembled on its own and
agrees with them (`SignTable.forward_build_mulVec`), so that over the real numbers nothing is refused. It looks at one
angle and at differences, never at the other angles; `SignTable.Passes.abs_deviation_le` adds up what it leaves open.
-/

namespace CircuitSynthesis

open Finset (range)

section WalshSign

/-- A number below `2 ^ k` has no bits from the `k`-th on. -/
lemma testBit_eq_false_of_lt {k b x : ℕ} (hx : x < 2 ^ k) (hb : k ≤ b) : x.testBit b = false :=
  Nat.testBit_lt_two_pow (hx.trans_le (Nat.pow_le_pow_right (by decide) hb))

/-- The common weight counts the bits that two numbers share. -/
lemma commonWeight_eq_card {k x : ℕ} (y : ℕ) (hx : x < 2 ^ k) :
    commonWeight x y = ((range k).filter fun b => x.testBit b && y.testBit b).card := by
  have hnodup : (GrayCode.setBits (x &&& y)).Nodup := List.nodup_range.filter _
  rw [commonWeight, ← List.toFinset_card_of_nodup hnodup]
  congr 1
  ext b
  simp only [GrayCode.setBits, List.mem_toFinset, List.mem_filter, List.mem_range, Finset.mem_filter, Finset.mem_range,
    ← Nat.testBit_and]
  constructor
  · rintro ⟨-, hb⟩
    refine ⟨?_, hb⟩
    by_contra hk
    rw [Nat.testBit_and, testBit_eq_false_of_lt hx (by omega)] at hb
    cases hb
  · rintro ⟨-, hb⟩
    refine ⟨?_, hb⟩
    by_contra hlog
    rw [testBit_eq_false_of_lt Nat.lt_log2_self (by omega)] at hb
    cases hb

/-- A sign is a power of minus one, by the bits that a control value shares with a code. -/
lemma walshSign_eq_pow (x j : ℕ) : (walshSign x j : ℝ) = (-1) ^ commonWeight x (GrayCode.encode j) := by
  rw [walshSign]
  split
  case isTrue h => exact (Even.neg_one_pow (Nat.even_iff.2 h)).symm
  case isFalse h => exact (Odd.neg_one_pow (Nat.odd_iff.2 (by omega))).symm

/-- A sign is a product over the control bits. -/
lemma walshSign_eq_prod {k x : ℕ} (j : ℕ) (hx : x < 2 ^ k) :
    (walshSign x j : ℝ) = ∏ b ∈ range k, if x.testBit b && (GrayCode.encode j).testBit b then -1 else 1 := by
  rw [walshSign_eq_pow, commonWeight_eq_card _ hx, Finset.prod_ite]
  simp

/-- All signs are positive where no control reads one. -/
@[simp] lemma walshSign_zero_left (j : ℕ) : (walshSign 0 j : ℝ) = 1 := by
  rw [walshSign_eq_prod (k := 0) j (by decide)]
  simp

/-- All signs of the first step are positive. -/
@[simp] lemma walshSign_zero_right (x : ℕ) : (walshSign x 0 : ℝ) = 1 := by
  rw [walshSign_eq_prod 0 x.lt_two_pow_self]
  simp

/-- A sign has absolute value one. -/
lemma abs_walshSign (x j : ℕ) : |(walshSign x j : ℝ)| = 1 := by
  rw [walshSign]
  split <;> simp

/-- A sum over twice as many numbers, by their lowest bits. -/
lemma sum_range_two_mul {β : Type} [AddCommMonoid β] (f : ℕ → β) (n : ℕ) :
    ∑ j ∈ range (2 * n), f j = ∑ m ∈ range n, (f (Nat.bit false m) + f (Nat.bit true m)) := by
  induction n with
  | zero => simp
  | succ n ih => rw [Nat.mul_succ, Finset.sum_range_succ, Finset.sum_range_succ, Finset.sum_range_succ, ih, add_assoc]; rfl

/-- Summing over all codes a product over their bits gives a product of sums. -/
lemma sum_prod_encode (k : ℕ) (z : ℕ → ℝ) :
    ∑ j ∈ range (2 ^ k), ∏ b ∈ range k, (if (GrayCode.encode j).testBit b then z b else 1) =
      ∏ b ∈ range k, (1 + z b) := by
  induction k generalizing z with
  | zero => simp
  | succ k ih =>
    rw [Nat.pow_succ, Nat.mul_comm, sum_range_two_mul, Finset.prod_range_succ', ← ih, Finset.sum_mul]
    refine Finset.sum_congr rfl fun m _ => ?_
    simp only [Finset.prod_range_succ', GrayCode.testBit_succ_encode_bit, GrayCode.testBit_zero_encode_bit]
    cases m.testBit 0 <;> simp <;> ring

/-- The rows of the sign matrix are orthogonal. -/
lemma sum_walshSign_mul_walshSign {k x y : ℕ} (hx : x < 2 ^ k) (hy : y < 2 ^ k) :
    ∑ j ∈ range (2 ^ k), (walshSign x j : ℝ) * walshSign y j = if x = y then 2 ^ k else 0 := by
  let z (b : ℕ) : ℝ := if x.testBit b = y.testBit b then 1 else -1
  have hterm (j : ℕ) : (walshSign x j : ℝ) * walshSign y j =
      ∏ b ∈ range k, (if (GrayCode.encode j).testBit b then z b else 1) := by
    rw [walshSign_eq_prod j hx, walshSign_eq_prod j hy, ← Finset.prod_mul_distrib]
    refine Finset.prod_congr rfl fun b _ => ?_
    simp only [z]
    cases x.testBit b <;> cases y.testBit b <;> cases (GrayCode.encode j).testBit b <;> simp
  simp only [hterm, sum_prod_encode]
  split
  case isTrue h =>
    subst h
    norm_num [z]
  case isFalse h =>
    obtain ⟨b, hb⟩ := Nat.exists_testBit_ne_of_ne h
    have hbk : b < k := by
      by_contra hge
      rw [testBit_eq_false_of_lt hx (by omega), testBit_eq_false_of_lt hy (by omega)] at hb
      exact hb rfl
    exact Finset.prod_eq_zero (Finset.mem_range.2 hbk) (by simp [z, hb])

end WalshSign

namespace SignTable

variable {width : ℕ}

section Signs

open Matrix

variable {k : ℕ}

/-- The signs as a matrix: a row for each control value and a column for each step. -/
def signs (k : ℕ) : Matrix (Fin (2 ^ k)) (Fin (2 ^ k)) ℝ := .of fun x j => (-1) ^ commonWeight x (GrayCode.encode j)

/-- The entries of the sign matrix are the signs. -/
lemma signs_apply (x j : Fin (2 ^ k)) : signs k x j = walshSign x j := (walshSign_eq_pow x j).symm

/-- The rows of the sign matrix are orthogonal. -/
lemma signs_mul_transpose (k : ℕ) : signs k * (signs k)ᵀ = (2 : ℝ) ^ k • 1 := by
  ext x y
  simp only [mul_apply, transpose_apply, signs_apply]
  rw [← Finset.sum_range fun j => (walshSign x j : ℝ) * walshSign y j, sum_walshSign_mul_walshSign x.isLt y.isLt,
    Matrix.smul_apply, one_apply, smul_eq_mul, mul_ite, mul_one, mul_zero]
  simp only [Fin.ext_iff]

/-- The stored inverse is the transposed sign matrix, divided by the number of steps. -/
lemma toReal_inverse_build (width : ℕ) :
    (build width : SignTable ℝ width).inverse.toReal = ((2 : ℝ) ^ (width - 1))⁻¹ • (signs (width - 1))ᵀ := by
  ext j x
  rw [build, Dense.toReal_ofFn, of_apply, Matrix.smul_apply, transpose_apply, signs_apply, smul_eq_mul, one_div]
  congr 2
  exact (Nat.cast_pow 2 (width - 1)).trans (by norm_num)

/-- The stored inverse inverts the signs from the right, and hence from the left. -/
lemma signs_mul_inverse (width : ℕ) : signs (width - 1) * (build width : SignTable ℝ width).inverse.toReal = 1 := by
  rw [toReal_inverse_build, Matrix.mul_smul, signs_mul_transpose]
  exact inv_smul_smul₀ (by positivity) 1

/-- The stored inverse inverts the sign matrix from the left. -/
lemma inverse_mul_signs (width : ℕ) : (build width : SignTable ℝ width).inverse.toReal * signs (width - 1) = 1 :=
  mul_eq_one_comm.1 (signs_mul_inverse width)

/-- The stored forward matrix takes differences of neighbouring rows of the sign matrix. -/
lemma toReal_forward_build (width : ℕ) : (build width : SignTable ℝ width).forward.toReal =
    (differenceOperator (2 ^ (width - 1) - 1) (2 ^ (width - 1))).toReal * signs (width - 1) := by
  have hsigns : (signMatrix (2 ^ (width - 1)) : Dense ℝ _ _).toReal = signs (width - 1) := by
    ext x j
    rw [signMatrix, Dense.toReal_ofFn, of_apply, signs_apply]
  rw [build, Dense.toReal_dot, hsigns]

/-- The entries of the difference operator. -/
lemma toReal_differenceOperator {len n : ℕ} (r : Fin len) (i : Fin n) :
    (differenceOperator len n : Dense ℝ len n).toReal r i = if r.val = i then -1 else if r.val + 1 = i then 1 else 0 := by
  rw [differenceOperator, Dense.toReal_transpose, transpose_apply]
  simp [Dense.toReal, Dense.get, GrayCode.differenceColumn]

/-- The difference operator takes the values to the differences between neighbours. -/
lemma differenceOperator_mulVec {len n : ℕ} (v : Fin n → ℝ) (r : Fin len) (hr : r.val + 1 < n) :
    ((differenceOperator len n).toReal *ᵥ v) r = v ⟨r + 1, hr⟩ - v ⟨r, by omega⟩ := by
  have hterm (i : Fin n) : (differenceOperator len n).toReal r i * v i =
      (if (⟨r + 1, hr⟩ : Fin n) = i then v i else 0) - if (⟨r, by omega⟩ : Fin n) = i then v i else 0 := by
    rw [toReal_differenceOperator]
    simp only [Fin.ext_iff]
    split_ifs <;> first | omega | ring
  simp only [mulVec, dotProduct, hterm, Finset.sum_sub_distrib, Finset.sum_ite_eq, Finset.mem_univ, if_true]

end Signs

section Check

open Matrix

/-- What the check asks of the angles of the steps: that they reproduce the first angle and the differences between
neighbouring angles, each up to a limit. -/
structure Passes (table : SignTable ℝ width) (α θ : Fin (2 ^ (width - 1)) → ℝ) (limit : ℝ) : Prop where
  first : |∑ j, θ j - α ⟨0, Nat.two_pow_pos _⟩| ≤ limit
  next (i : Fin (2 ^ (width - 1) - 1)) :
    |∑ j, table.forward.get i j * θ j - (α ⟨i + 1, by omega⟩ - α ⟨i, by omega⟩)| ≤ limit

/-- The check reads the forward matrix only. -/
lemma passes_congr {table table' : SignTable ℝ width} {α θ : Fin (2 ^ (width - 1)) → ℝ} {limit : ℝ}
    (h : table.forward = table'.forward) : table.Passes α θ limit ↔ table'.Passes α θ limit := by
  constructor
  case mp => exact fun hpasses => ⟨hpasses.first, h ▸ hpasses.next⟩
  case mpr => exact fun hpasses => ⟨hpasses.first, h ▸ hpasses.next⟩

/-- The limit with which angles are solved for. -/
noncomputable def checkLimit (width : ℕ) (alpha : List ℝ) : ℝ :=
  1e-9 * (1 + alpha.foldl (fun best a => Scalar.maximum best (Scalar.abs a)) 0) * ((2 ^ (width - 1) : ℕ) : ℝ)

/-- The limit is not negative. -/
lemma checkLimit_nonneg (width : ℕ) (alpha : List ℝ) : 0 ≤ checkLimit width alpha := by
  have hmono (best : ℝ) : best ≤ alpha.foldl (fun best a => Scalar.maximum best (Scalar.abs a)) best := by
    induction alpha generalizing best with
    | nil => exact le_rfl
    | cons a alpha ih => exact (Scalar.le_maximum_left _ _).trans (ih _)
  have hlargest := hmono 0
  unfold checkLimit
  positivity

/-- Solving returns what the stored inverse makes of the angles, if that passes the check, and refuses it otherwise. -/
lemma solve_eq_ok_iff (table : SignTable ℝ width) (alpha : List ℝ) (hlen : alpha.length = 2 ^ (width - 1))
    (theta : Vector ℝ (2 ^ (width - 1))) :
    table.solve alpha = .ok theta ↔
      theta = .ofFn (table.inverse.toReal *ᵥ fun x => alpha.get (x.cast hlen.symm)) ∧
      table.Passes (fun x => alpha.get (x.cast hlen.symm)) theta.get (checkLimit width alpha) := by
  rw [solve, dif_pos hlen]
  simp only [Scalar.laneSum_real, Scalar.isFinite_real, Scalar.abs_real, Bool.not_true, Bool.false_or,
    decide_eq_true_eq, Fin.cast_mk]
  split
  case isTrue hfirst =>
    refine iff_of_false nofun ?_
    rintro ⟨rfl, hpasses⟩
    exact hfirst.not_ge hpasses.first
  case isFalse hfirst =>
    split
    case h_1 i hfound =>
      refine iff_of_false nofun ?_
      rintro ⟨rfl, hpasses⟩
      have hoff := List.find?_some hfound
      exact (of_decide_eq_true hoff).not_ge (hpasses.next i)
    case h_2 hnone =>
      have hnext (i : Fin (2 ^ (width - 1) - 1)) := List.find?_eq_none.1 hnone i (List.mem_finRange i)
      simp only [decide_eq_true_eq, not_lt] at hnext
      constructor
      case mp =>
        rintro ⟨rfl⟩
        exact ⟨rfl, not_lt.1 hfirst, hnext⟩
      case mpr =>
        rintro ⟨rfl, -⟩
        rfl

end Check

section Solving

open Matrix

/-- What the stored inverse makes of the angles at the control values. -/
noncomputable def candidate (width : ℕ) (α : Fin (2 ^ (width - 1)) → ℝ) : Vector ℝ (2 ^ (width - 1)) :=
  .ofFn ((build width : SignTable ℝ width).inverse.toReal *ᵥ α)

/-- The candidate multiplies the angles by the stored inverse. -/
lemma get_candidate (width : ℕ) (α : Fin (2 ^ (width - 1)) → ℝ) :
    (candidate width α).get = (build width : SignTable ℝ width).inverse.toReal *ᵥ α :=
  funext fun _ => Vector.get_ofFn ..

/-- The candidate combines to the angles, and nothing else does. -/
lemma signs_mulVec_eq_iff {width : ℕ} {v α : Fin (2 ^ (width - 1)) → ℝ} :
    signs (width - 1) *ᵥ v = α ↔ v = (candidate width α).get := by
  rw [get_candidate]
  constructor
  case mp =>
    rintro rfl
    rw [mulVec_mulVec, inverse_mul_signs, one_mulVec]
  case mpr =>
    rintro rfl
    rw [mulVec_mulVec, signs_mul_inverse, one_mulVec]

/-- The candidate solves for its angles. -/
lemma signs_mulVec_candidate (width : ℕ) (α : Fin (2 ^ (width - 1)) → ℝ) :
    signs (width - 1) *ᵥ (candidate width α).get = α :=
  signs_mulVec_eq_iff.2 rfl

/-- The differences that the check reads off the steps are those of the angles that the steps combine to. -/
lemma forward_build_mulVec {width : ℕ} {v α : Fin (2 ^ (width - 1)) → ℝ} (hv : signs (width - 1) *ᵥ v = α)
    (i : Fin (2 ^ (width - 1) - 1)) :
    ((build width : SignTable ℝ width).forward.toReal *ᵥ v) i = α ⟨i + 1, by omega⟩ - α ⟨i, by omega⟩ := by
  rw [toReal_forward_build, ← mulVec_mulVec, hv]
  exact differenceOperator_mulVec α i (by omega)

/-- The sum that the check compares with the first angle is the first angle that the steps combine to. -/
lemma signs_mulVec_zero {k : ℕ} (θ : Fin (2 ^ k) → ℝ) : (signs k *ᵥ θ) ⟨0, Nat.two_pow_pos _⟩ = ∑ j, θ j := by
  simp only [mulVec, dotProduct, signs_apply, walshSign_zero_left, one_mul]

/-- The error at a control value: how far the angle that the steps combine to is from the one that was asked for. -/
noncomputable def deviation {k : ℕ} (α θ : Fin (2 ^ k) → ℝ) : Fin (2 ^ k) → ℝ := signs k *ᵥ θ - α

/-- The check asks that the error starts within the limit and never changes by more than the limit. -/
lemma passes_build_iff {α θ : Fin (2 ^ (width - 1)) → ℝ} {limit : ℝ} :
    (build width : SignTable ℝ width).Passes α θ limit ↔
      |deviation α θ ⟨0, Nat.two_pow_pos _⟩| ≤ limit ∧
      ∀ i : Fin (2 ^ (width - 1) - 1), |deviation α θ ⟨i + 1, by omega⟩ - deviation α θ ⟨i, by omega⟩| ≤ limit := by
  have hfirst : ∑ j, θ j - α ⟨0, Nat.two_pow_pos _⟩ = deviation α θ ⟨0, Nat.two_pow_pos _⟩ := by
    rw [deviation, Pi.sub_apply, signs_mulVec_zero]
  have hnext (i : Fin (2 ^ (width - 1) - 1)) :
      ∑ j, (build width : SignTable ℝ width).forward.get i j * θ j - (α ⟨i + 1, by omega⟩ - α ⟨i, by omega⟩) =
        deviation α θ ⟨i + 1, by omega⟩ - deviation α θ ⟨i, by omega⟩ := by
    rw [deviation, Pi.sub_apply, Pi.sub_apply, sub_sub_sub_comm, ← forward_build_mulVec rfl]
    rfl
  constructor
  case mp => exact fun h => ⟨hfirst ▸ h.first, fun i => hnext i ▸ h.next i⟩
  case mpr => exact fun h => ⟨hfirst.symm ▸ h.1, fun i => (hnext i).symm ▸ h.2 i⟩

/-- Angles that are reproduced without error pass, whatever the limit. -/
lemma passes_of_signs_mulVec_eq {α θ : Fin (2 ^ (width - 1)) → ℝ} {limit : ℝ} (hlimit : 0 ≤ limit)
    (hθ : signs (width - 1) *ᵥ θ = α) : (build width : SignTable ℝ width).Passes α θ limit := by
  rw [passes_build_iff, deviation, hθ, sub_self]
  simpa using ⟨hlimit, fun _ => hlimit⟩

/-- The candidate passes the check. -/
lemma solve_build_eq (width : ℕ) (alpha : List ℝ) (hlen : alpha.length = 2 ^ (width - 1)) :
    (build width : SignTable ℝ width).solve alpha = .ok (candidate width fun x => alpha.get (x.cast hlen.symm)) := by
  rw [solve_eq_ok_iff _ alpha hlen]
  exact ⟨rfl, passes_of_signs_mulVec_eq (checkLimit_nonneg width alpha) (signs_mulVec_candidate width _)⟩

/-- Over the real numbers every right-hand side of the right length is solved. -/
theorem solve_build (width : ℕ) (alpha : List ℝ) (hlen : alpha.length = 2 ^ (width - 1)) :
    ∃ theta : Vector ℝ (2 ^ (width - 1)), (build width : SignTable ℝ width).solve alpha = .ok theta ∧
      ∀ x (hx : x < alpha.length), ∑ j : Fin (2 ^ (width - 1)), walshSign x j * theta.get j = alpha[x] := by
  refine ⟨_, solve_build_eq width alpha hlen, fun x hx => ?_⟩
  have h := congrFun (signs_mulVec_candidate width fun x => alpha.get (x.cast hlen.symm)) ⟨x, hlen ▸ hx⟩
  simp only [mulVec, dotProduct, signs_apply] at h
  exact h

/-- Solving inverts the signs. Angles in the right number have exactly one solution, it is the one that is returned, and
the check agrees with it; any other number of angles is refused. -/
theorem solve_inverts_signs (width : ℕ) (alpha : List ℝ) :
    (build width : SignTable ℝ width).inverse.toReal * signs (width - 1) = 1 ∧
    signs (width - 1) * (build width : SignTable ℝ width).inverse.toReal = 1 ∧
    (∀ hlen : alpha.length = 2 ^ (width - 1), ∃ theta : Vector ℝ (2 ^ (width - 1)),
      (build width : SignTable ℝ width).solve alpha = .ok theta ∧
      (∀ v : Fin (2 ^ (width - 1)) → ℝ, (∀ x : Fin (2 ^ (width - 1)),
        ∑ j : Fin (2 ^ (width - 1)), (-1) ^ commonWeight x (GrayCode.encode j) * v j =
          alpha.get (x.cast hlen.symm)) ↔ v = theta.get) ∧
      ∀ i : Fin (2 ^ (width - 1) - 1), ∑ j, (build width : SignTable ℝ width).forward.get i j * theta.get j =
        alpha.get ⟨i + 1, by omega⟩ - alpha.get ⟨i, by omega⟩) ∧
    (alpha.length ≠ 2 ^ (width - 1) → (build width : SignTable ℝ width).solve alpha =
      .error (.shape (.angleCount width (2 ^ (width - 1)) alpha.length))) := by
  refine ⟨inverse_mul_signs width, signs_mul_inverse width, fun hlen => ⟨_, solve_build_eq width alpha hlen, ?_, ?_⟩,
    fun hlen => dif_neg hlen⟩
  case refine_1 => exact fun v => funext_iff.symm.trans signs_mulVec_eq_iff
  case refine_2 => exact forward_build_mulVec (signs_mulVec_candidate width _)

/-- Two angles are the sum and the difference of two steps. One angle alone is refused at their width. -/
theorem solve_inverts_signs_pair :
    (build 2 : SignTable ℝ 2).solve [1, 3] = .ok #v[2, -1] ∧
      (build 2 : SignTable ℝ 2).solve [1] = .error (.shape (.angleCount 2 2 1)) := by
  obtain ⟨-, -, hsolve, -⟩ := solve_inverts_signs 2 [1, 3]
  obtain ⟨-, -, -, hrefused⟩ := solve_inverts_signs 2 [1]
  obtain ⟨theta, htheta, hunique, -⟩ := hsolve rfl
  have hpair : (#v[2, -1] : Vector ℝ (2 ^ (2 - 1))) = theta := by
    refine Vector.ext fun j hj => congrFun ((hunique (#v[2, -1] : Vector ℝ (2 ^ (2 - 1))).get).1 fun x => ?_) ⟨j, hj⟩
    refine (Fin.sum_univ_two _).trans ?_
    fin_cases x
    · change (-1) ^ commonWeight 0 (GrayCode.encode 0) * (2 : ℝ) + (-1) ^ commonWeight 0 (GrayCode.encode 1) * -1 = 1
      have hweight (y : ℕ) : commonWeight 0 y = 0 := by simp [commonWeight, GrayCode.setBits]
      rw [hweight, hweight]
      norm_num
    · change (-1) ^ commonWeight 1 (GrayCode.encode 0) * (2 : ℝ) + (-1) ^ commonWeight 1 (GrayCode.encode 1) * -1 = 3
      rw [show commonWeight 1 (GrayCode.encode 0) = 0 by decide, show commonWeight 1 (GrayCode.encode 1) = 1 by decide]
      norm_num
  exact ⟨htheta.trans (congrArg _ hpair.symm), hrefused (by decide)⟩

end Solving

section Errors

open Matrix

variable {α θ : Fin (2 ^ (width - 1)) → ℝ} {limit : ℝ}

/-- The error starts within the limit and grows by no more than the limit from one control value to the next. -/
lemma Passes.abs_deviation_le (h : (build width : SignTable ℝ width).Passes α θ limit) (x : Fin (2 ^ (width - 1))) :
    |deviation α θ x| ≤ (x + 1) * limit := by
  obtain ⟨hfirst, hnext⟩ := passes_build_iff.1 h
  obtain ⟨x, hx⟩ := x
  induction x with
  | zero => simpa using hfirst
  | succ x ih =>
    have hbefore := ih (by omega)
    have hstep := hnext ⟨x, by omega⟩
    calc |deviation α θ ⟨x + 1, hx⟩|
        = |deviation α θ ⟨x, by omega⟩ + (deviation α θ ⟨x + 1, hx⟩ - deviation α θ ⟨x, by omega⟩)| := by
          rw [add_sub_cancel]
      _ ≤ |deviation α θ ⟨x, by omega⟩| + |deviation α θ ⟨x + 1, hx⟩ - deviation α θ ⟨x, by omega⟩| :=
          abs_add_le _ _
      _ ≤ (x + 1) * limit + limit := add_le_add hbefore hstep
      _ = ((x + 1 : ℕ) + 1) * limit := by push_cast; ring

/-- Without tolerance the solution passes and nothing else does. -/
lemma passes_zero_iff : (build width : SignTable ℝ width).Passes α θ 0 ↔ ∀ x, deviation α θ x = 0 := by
  constructor
  case mp =>
    intro h x
    have hx := h.abs_deviation_le x
    rwa [mul_zero, abs_nonpos_iff] at hx
  case mpr =>
    intro h
    have hsolves : signs (width - 1) *ᵥ θ = α := funext fun x => sub_eq_zero.1 (h x)
    exact passes_of_signs_mulVec_eq le_rfl hsolves

/-- No smaller bound holds: an error that grows by the whole limit at every control value is accepted. -/
lemma exists_passes_deviation_eq (α : Fin (2 ^ (width - 1)) → ℝ) (hlimit : 0 ≤ limit) :
    ∃ θ, (build width : SignTable ℝ width).Passes α θ limit ∧ ∀ x, deviation α θ x = (x + 1) * limit := by
  let shifted (x : Fin (2 ^ (width - 1))) : ℝ := α x + (x + 1) * limit
  have hdeviation (x : Fin (2 ^ (width - 1))) : deviation α (candidate width shifted).get x = (x + 1) * limit := by
    rw [deviation, signs_mulVec_candidate, Pi.sub_apply]
    exact add_sub_cancel_left _ _
  refine ⟨(candidate width shifted).get, ?_, hdeviation⟩
  rw [passes_build_iff]
  constructor
  case left =>
    rw [hdeviation]
    simp [abs_of_nonneg hlimit]
  case right =>
    intro i
    rw [hdeviation, hdeviation, ← sub_mul]
    simp [abs_of_nonneg hlimit]

/-- The check bounds the error of every candidate, whatever it was computed with. Accepted within a limit, the angle at
control value `x` is off by at most `x + 1` times the limit, a bound that is attained at all control values at once;
accepted without tolerance, no angle is off. It is by this check that a table, whatever inverse it holds, decides. -/
theorem passes_bounds_errors (width : ℕ) (α : Fin (2 ^ (width - 1)) → ℝ) :
    (∀ θ limit, (build width : SignTable ℝ width).Passes α θ limit → ∀ x : Fin (2 ^ (width - 1)),
      |∑ j : Fin (2 ^ (width - 1)), (-1) ^ commonWeight x (GrayCode.encode j) * θ j - α x| ≤ (x + 1) * limit) ∧
    (∀ θ, (build width : SignTable ℝ width).Passes α θ 0 ↔ ∀ x : Fin (2 ^ (width - 1)),
      ∑ j : Fin (2 ^ (width - 1)), (-1) ^ commonWeight x (GrayCode.encode j) * θ j = α x) ∧
    (∀ limit, 0 ≤ limit → ∃ θ, (build width : SignTable ℝ width).Passes α θ limit ∧ ∀ x : Fin (2 ^ (width - 1)),
      ∑ j : Fin (2 ^ (width - 1)), (-1) ^ commonWeight x (GrayCode.encode j) * θ j - α x = (x + 1) * limit) ∧
    ∀ (inverse : Dense ℝ (2 ^ (width - 1)) (2 ^ (width - 1))) (theta : Vector ℝ (2 ^ (width - 1))),
      { (build width : SignTable ℝ width) with inverse := inverse }.solve (List.ofFn α) = .ok theta ↔
        theta = .ofFn (inverse.toReal *ᵥ α) ∧
        (build width : SignTable ℝ width).Passes α theta.get (checkLimit width (List.ofFn α)) := by
  refine ⟨fun θ limit h => h.abs_deviation_le, fun θ => ?_, fun limit => exists_passes_deviation_eq α, ?_⟩
  case refine_1 => exact passes_zero_iff.trans (forall_congr' fun x => sub_eq_zero)
  case refine_2 =>
    intro inverse theta
    rw [solve_eq_ok_iff _ _ List.length_ofFn]
    simp only [List.get_ofFn]
    exact and_congr_right' (passes_congr rfl)

/-- Angles that fall by one from each control value to the next. A first step of one, with no other, misses them by one
more at each. -/
def fallingAngles : Fin (2 ^ (3 - 1)) → ℝ := fun x => -x

/-- The first step alone misses the falling angles by one more at each control value. -/
lemma deviation_fallingAngles (x : Fin (2 ^ (3 - 1))) :
    deviation fallingAngles (Pi.single ⟨0, Nat.two_pow_pos _⟩ 1) x = x + 1 := by
  have hsum : (signs (3 - 1) *ᵥ Pi.single ⟨0, Nat.two_pow_pos _⟩ 1) x = 1 := by
    rw [mulVec_single_one, col_apply, signs_apply, walshSign_zero_right]
  rw [deviation, Pi.sub_apply, hsum, fallingAngles, sub_neg_eq_add, add_comm]

/-- With a limit of one the check passes, and the errors grow to as many times the limit as the bound allows. -/
theorem passes_bounds_errors_falling :
    (build 3 : SignTable ℝ 3).Passes fallingAngles (Pi.single ⟨0, Nat.two_pow_pos _⟩ 1) 1 ∧
    ∀ x : Fin (2 ^ (3 - 1)), |∑ j : Fin (2 ^ (3 - 1)), (-1 : ℝ) ^ commonWeight x (GrayCode.encode j) *
      (Pi.single ⟨0, Nat.two_pow_pos _⟩ 1 : Fin (2 ^ (3 - 1)) → ℝ) j - fallingAngles x| ≤ (x + 1) * 1 := by
  have hpasses : (build 3 : SignTable ℝ 3).Passes fallingAngles (Pi.single ⟨0, Nat.two_pow_pos _⟩ 1) 1 := by
    rw [passes_build_iff]
    simp only [deviation_fallingAngles]
    norm_num
  exact ⟨hpasses, (passes_bounds_errors 3 fallingAngles).1 _ _ hpasses⟩

end Errors

end SignTable

end CircuitSynthesis
