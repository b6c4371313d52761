import Mathlib
import CircuitSynthesis.Multiplexed
import CircuitSynthesis.Proofs.SignTable
import CircuitSynthesis.Proofs.Register.Operator

/-!
# The operator of a multiplexed rotation

A ladder acts on its target alone. Where its controls read `x`, each controlled-NOT turns all later rotations around if
its control reads one, so that the ladder amounts to one rotation by a signed sum of its angles (`ladderBlock_mul`). Along
the Gray code the signs are those of the sign matrix and the exchanges cancel in the end. `multiplexedRotation_build`
puts this together: the ladder of a solved table rotates its target by the angle that was asked for, up to the rotations
that fall below the cutoff. `multiplexedRotation_operator` adds how many controlled-NOTs are spent.
-/

namespace CircuitSynthesis

open Finset (range)

/-- A rotation about one of some axes or a controlled-NOT whose control lies above its target, within the wires from
`lo` to below `hi`. -/
def ElementaryGate.IsStep (axes : Axis → Prop) (lo hi : ℕ) : ElementaryGate ℝ → Prop
  | unitary _ _ => False
  | rotation wire axis _ => axes axis ∧ lo ≤ wire ∧ wire < hi
  | entangler control target => lo ≤ target ∧ target < control ∧ control < hi

namespace ElementaryGate.IsStep

variable {axes axes' : Axis → Prop} {lo lo' hi hi' : ℕ} {g : ElementaryGate ℝ}

/-- Steps may be counted among more axes and more wires. -/
lemma mono (h : g.IsStep axes lo hi) (haxes : ∀ a, axes a → axes' a) (hlo : lo' ≤ lo) (hhi : hi ≤ hi') :
    g.IsStep axes' lo' hi' := by
  cases g with
  | unitary => exact h
  | rotation => exact ⟨haxes _ h.1, hlo.trans h.2.1, h.2.2.trans_le hhi⟩
  | entangler => exact ⟨hlo.trans h.1, h.2.1, h.2.2.trans_le hhi⟩

/-- A step within some wires fits on them. -/
lemma fits (h : g.IsStep axes lo hi) : g.Fits hi := by
  cases g with
  | unitary => exact h.elim
  | rotation => exact h.2.2
  | entangler => exact ⟨h.2.2, h.2.1.trans h.2.2, h.2.1.ne'⟩

/-- Every step is unitary. -/
lemma isUnitary (h : g.IsStep axes lo hi) : g.IsUnitary := by
  cases g with
  | unitary => exact h.elim
  | rotation => trivial
  | entangler => trivial

end ElementaryGate.IsStep

section Ladder

variable {n target : ℕ} {axis : Axis} {cutoff : ℝ}

/-- An angle that is not below the cutoff, or zero in its place. -/
noncomputable def kept (cutoff angle : ℝ) : ℝ := if cutoff ≤ |angle| then angle else 0

/-- What is left out of an angle is no larger than the cutoff. -/
lemma abs_kept_sub_le (hcutoff : 0 ≤ cutoff) (angle : ℝ) : |kept cutoff angle - angle| ≤ cutoff := by
  rw [kept]
  split
  case isTrue => simpa using hcutoff
  case isFalse h =>
    rw [zero_sub, abs_neg]
    exact (not_le.1 h).le

/-- The exchange of the two values of the target, or nothing. -/
noncomputable def exchangeIf (b : Bool) : Matrix Bool Bool ℂ := if b then exchange else 1

/-- What is left of the exchanges so far, given the sign that they put on a rotation. -/
noncomputable def signExchange (s : ℝ) : Matrix Bool Bool ℂ := if s = 1 then 1 else exchange

/-- One more exchange changes the sign. -/
lemma exchangeIf_mul_signExchange {s : ℝ} (hs : |s| = 1) (b : Bool) :
    exchangeIf b * signExchange s = signExchange (s * if b then -1 else 1) := by
  have hne : (-1 : ℝ) ≠ 1 := by norm_num
  rcases eq_or_eq_neg_of_abs_eq hs with rfl | rfl <;> cases b <;> simp [exchangeIf, signExchange, hne]

/-- A rotation passes an exchange with its sign changed. -/
lemma rotation_mul_signExchange {s : ℝ} (hs : |s| = 1) (t : ℝ) :
    axis.rotation t * signExchange s = signExchange s * axis.rotation (s * t) := by
  have hne : (-1 : ℝ) ≠ 1 := by norm_num
  rcases eq_or_eq_neg_of_abs_eq hs with rfl | rfl
  · simp [signExchange]
  · simp [signExchange, hne, rotation_mul_exchange]

/-- What a ladder does to its target where control `c` reads `bit c`. -/
noncomputable def ladderBlock (axis : Axis) (cutoff : ℝ) (bit : ℕ → Bool) : List ℝ → List ℕ → Matrix Bool Bool ℂ
  | angle :: angles, control :: controls =>
    ladderBlock axis cutoff bit angles controls * (exchangeIf (bit control) * axis.rotation (kept cutoff angle))
  | _, _ => 1

/-- A ladder acts on its target alone, for each value of the controls by itself. -/
lemma gatesOperator_rotationLadder (htarget : target < n) (angles : List ℝ) (controls : List ℕ) :
    gatesOperator n (rotationLadder axis target cutoff angles controls) =
      wireOperator n target fun i => ladderBlock axis cutoff (fun c => i.testBit (target + 1 + c)) angles controls := by
  induction angles generalizing controls with
  | nil => simp only [rotationLadder, ladderBlock, gatesOperator_nil, wireOperator_one]
  | cons angle angles ih =>
    cases controls with
    | nil => simp only [rotationLadder, ladderBlock, gatesOperator_nil, wireOperator_one]
    | cons control controls =>
      -- the control lies above the target, so the factor of a step does not depend on the target
      have hignores : Ignores target fun i =>
          exchangeIf (i.testBit (target + 1 + control)) * axis.rotation (kept cutoff angle) := by
        intro b i
        simp only [testBit_setWire]
        rw [if_neg (by omega)]
      have hstep : gatesOperator n (if cutoff ≤ Scalar.abs angle then
          [.rotation target axis angle, .entangler (target + 1 + control) target]
          else [.entangler (target + 1 + control) target]) =
          wireOperator n target fun i =>
            exchangeIf (i.testBit (target + 1 + control)) * axis.rotation (kept cutoff angle) := by
        split
        case isTrue h =>
          rw [gatesOperator_cons, gatesOperator_cons, gatesOperator_nil, Matrix.one_mul, kept, if_pos (show cutoff ≤ |angle| from h)]
          exact wireOperator_mul htarget _ _ fun _ _ => rfl
        case isFalse h =>
          rw [gatesOperator_cons, gatesOperator_nil, Matrix.one_mul, kept, if_neg (show ¬ cutoff ≤ |angle| from h), rotation_zero]
          simp only [Matrix.mul_one]
          rfl
      rw [rotationLadder]
      simp only [ladderBlock]
      rw [gatesOperator_append, hstep, ih, wireOperator_mul htarget _ _ hignores]

/-- A ladder of rotations is one rotation by the signed sum of the angles, and the exchanges that are left. -/
lemma ladderBlock_mul (axis : Axis) (cutoff : ℝ) (bit : ℕ → Bool) (angles : List ℝ) (controls : List ℕ) (hlen : angles.length = controls.length)
    (sign : ℕ → ℝ) (hsign : ∀ j, |sign j| = 1)
    (hstep : ∀ j (h : j < controls.length), sign (j + 1) = sign j * if bit controls[j] then -1 else 1) :
    ladderBlock axis cutoff bit angles controls * signExchange (sign 0) =
      signExchange (sign angles.length) *
        axis.rotation (∑ j ∈ range angles.length, sign j * kept cutoff (angles.getD j 0)) := by
  induction angles generalizing controls sign with
  | nil => simp [ladderBlock]
  | cons angle angles ih =>
    cases controls with
    | nil => cases hlen
    | cons control controls =>
      have hfirst : exchangeIf (bit control) * signExchange (sign 0) = signExchange (sign 1) := by
        rw [exchangeIf_mul_signExchange (hsign 0), hstep 0 (Nat.succ_pos _)]
        rfl
      have hrest := ih controls (by simpa using hlen) (fun j => sign (j + 1)) (fun j => hsign (j + 1))
        fun j h => hstep (j + 1) (by simpa using h)
      rw [ladderBlock, Matrix.mul_assoc, Matrix.mul_assoc, rotation_mul_signExchange (hsign 0),
        ← Matrix.mul_assoc (exchangeIf _), hfirst, ← Matrix.mul_assoc, hrest, Matrix.mul_assoc, ← rotation_add,
        List.length_cons, Finset.sum_range_succ']
      rfl

end Ladder

section Solved

variable {n target : ℕ} {axis : Axis} {cutoff : ℝ}

/-- Flipping one bit of a code changes a sign where the control of that bit reads one. -/
lemma walshSign_of_encode_xor {k v x j j' : ℕ} (hx : x < 2 ^ k)
    (h : GrayCode.encode j ^^^ GrayCode.encode j' = 2 ^ v) :
    (walshSign x j' : ℝ) = walshSign x j * if x.testBit v then -1 else 1 := by
  have hbit (b : ℕ) : (GrayCode.encode j').testBit b = ((GrayCode.encode j).testBit b ^^ decide (v = b)) := by
    have hb := congrArg (Nat.testBit · b) h
    simp only [Nat.testBit_xor, Nat.testBit_two_pow] at hb
    rw [← hb]
    cases (GrayCode.encode j).testBit b <;> simp
  have hterm (b : ℕ) : (if x.testBit b && (GrayCode.encode j').testBit b then (-1 : ℝ) else 1) =
      (if x.testBit b && (GrayCode.encode j).testBit b then -1 else 1) *
        if v = b then (if x.testBit b then -1 else 1) else 1 := by
    rw [hbit]
    cases x.testBit b <;> cases (GrayCode.encode j).testBit b <;> by_cases hv : v = b <;> simp [hv]
  rw [walshSign_eq_prod j' hx, walshSign_eq_prod j hx, Finset.prod_congr rfl fun b _ => hterm b,
    Finset.prod_mul_distrib, Finset.prod_ite_eq]
  split
  case isTrue => rfl
  case isFalse hv =>
    rw [testBit_eq_false_of_lt hx (by simpa using hv)]
    rfl

/-- The signed sum of the angles that are not left out: what the ladder rotates by where the controls read `x`. -/
noncomputable def ladderAngle (cutoff : ℝ) (k : ℕ) (theta : List ℝ) (x : ℕ) : ℝ :=
  ∑ j ∈ range (2 ^ k), walshSign x j * kept cutoff (theta.getD j 0)

/-- Along the Gray code the exchanges cancel, and the signs are those of the sign matrix. -/
lemma ladderBlock_controlLadder {k : ℕ} (bit : ℕ → Bool) (theta : List ℝ) (hlen : theta.length = 2 ^ (k + 1)) {x : ℕ}
    (hx : x < 2 ^ (k + 1)) (hbit : ∀ c ≤ k, bit c = x.testBit c) :
    ladderBlock axis cutoff bit theta (GrayCode.controlLadder (k + 1)) =
      axis.rotation (ladderAngle cutoff (k + 1) theta x) := by
  -- the signs along the closed walk: the last step leads back to the first code
  let sign (j : ℕ) : ℝ := walshSign x (j % 2 ^ (k + 1))
  have hfirst : signExchange (sign 0) = 1 := by
    simp [sign, signExchange]
  have hlast : signExchange (sign theta.length) = 1 := by
    simp [sign, signExchange, hlen]
  have hstep (j : ℕ) (h : j < (GrayCode.controlLadder (k + 1)).length) :
      sign (j + 1) = sign j * if bit (GrayCode.controlLadder (k + 1))[j] then -1 else 1 := by
    have hj : j < 2 ^ (k + 1) := by simpa using h
    rw [GrayCode.getElem_controlLadder h, hbit _ (by omega)]
    simp only [sign, Nat.mod_eq_of_lt hj]
    exact walshSign_of_encode_xor hx (GrayCode.encode_xor_encode_next hj)
  have h := ladderBlock_mul axis cutoff bit theta (GrayCode.controlLadder (k + 1)) (by simp [hlen])
    sign (fun j => abs_walshSign _ _) hstep
  rw [hfirst, hlast, Matrix.mul_one, Matrix.one_mul, hlen] at h
  rw [h, ladderAngle]
  congr 1
  refine Finset.sum_congr rfl fun j hj => ?_
  simp only [sign, Nat.mod_eq_of_lt (Finset.mem_range.1 hj)]

/-- When all steps but the first are left out, the ladder is one rotation for all values of the controls. -/
lemma ladderAngle_of_rest {k : ℕ} {first : ℝ} {rest : List ℝ} (hlen : (first :: rest).length = 2 ^ k)
    (hrest : ∀ angle ∈ rest, ¬ cutoff ≤ |angle|) (x : ℕ) :
    ladderAngle cutoff k (first :: rest) x = kept cutoff first := by
  have hdropped (j : ℕ) (hj : j < rest.length) : kept cutoff (rest.getD j 0) = 0 := by
    rw [List.getD_eq_getElem _ _ hj, kept, if_neg (hrest _ (List.getElem_mem hj))]
  rw [ladderAngle, ← hlen, List.length_cons, Finset.sum_range_succ', Finset.sum_eq_zero, zero_add, walshSign_zero_right,
    one_mul]
  · rfl
  · intro j hj
    rw [List.getD_cons_succ, hdropped j (Finset.mem_range.1 hj), mul_zero]

/-- Leaving out angles below the cutoff changes the rotation by at most the cutoff for each of them. -/
lemma abs_ladderAngle_sub_le (hcutoff : 0 ≤ cutoff) (k : ℕ) (theta : List ℝ) (x : ℕ) :
    |ladderAngle cutoff k theta x - ∑ j ∈ range (2 ^ k), walshSign x j * theta.getD j 0| ≤ 2 ^ k * cutoff := by
  rw [ladderAngle, ← Finset.sum_sub_distrib]
  calc |∑ j ∈ range (2 ^ k), (walshSign x j * kept cutoff (theta.getD j 0) - walshSign x j * theta.getD j 0)|
      ≤ ∑ j ∈ range (2 ^ k), |walshSign x j * kept cutoff (theta.getD j 0) - walshSign x j * theta.getD j 0| :=
        Finset.abs_sum_le_sum_abs _ _
    _ ≤ ∑ j ∈ range (2 ^ k), cutoff := by
        refine Finset.sum_le_sum fun j _ => ?_
        rw [← mul_sub, abs_mul, abs_walshSign, one_mul]
        exact abs_kept_sub_le hcutoff _
    _ = 2 ^ k * cutoff := by simp

/-- The gates of a ladder are rotations of the target and controlled-NOTs from the wires above it. -/
lemma eq_of_mem_rotationLadder {R : Type} [Scalar R] {axis : Axis} {cutoff : R} {g : ElementaryGate R} (angles : List R)
    (controls : List ℕ) (h : g ∈ rotationLadder axis target cutoff angles controls) :
    (∃ angle, g = .rotation target axis angle) ∨ ∃ control ∈ controls, g = .entangler (target + 1 + control) target := by
  induction angles generalizing controls with
  | nil => simp [rotationLadder] at h
  | cons angle angles ih =>
    cases controls with
    | nil => simp [rotationLadder] at h
    | cons control controls =>
      rw [rotationLadder, List.mem_append] at h
      rcases h with hstep | hrest
      · split at hstep <;> simp only [List.mem_cons, List.not_mem_nil, or_false] at hstep
        · exact hstep.imp (fun heq => ⟨angle, heq⟩) fun heq => ⟨control, List.mem_cons_self, heq⟩
        · exact .inr ⟨control, List.mem_cons_self, hstep⟩
      · exact (ih controls hrest).imp_right fun ⟨c, hc, heq⟩ => ⟨c, List.mem_cons_of_mem _ hc, heq⟩

/-- A rotation ladder is made of steps on its target and the wires above. -/
lemma isStep_rotationLadder {k : ℕ} (angles : List ℝ) (controls : List ℕ) (h : ∀ c ∈ controls, c < k) :
    ∀ g ∈ rotationLadder axis target cutoff angles controls, g.IsStep (· = axis) target (target + k + 1) := by
  intro g hg
  rcases eq_of_mem_rotationLadder angles controls hg with ⟨angle, rfl⟩ | ⟨control, hcontrol, rfl⟩
  · exact ⟨rfl, le_rfl, by omega⟩
  · have hlt := h control hcontrol
    exact ⟨le_rfl, by omega, by omega⟩

/-- The controls of a ladder over `k` wires are among these wires. -/
lemma lt_of_mem_controlLadder {k c : ℕ} (h : c ∈ GrayCode.controlLadder k) : c < k := by
  cases k with
  | zero => cases h
  | succ k =>
    obtain ⟨j, hj, rfl⟩ := List.getElem_of_mem h
    rw [GrayCode.getElem_controlLadder hj]
    omega

/-- The ladder of a table is that of its width. -/
lemma SignTable.ladder_build {R : Type} [Scalar R] (k : ℕ) :
    (build (k + 1) : SignTable R (k + 1)).ladder = GrayCode.controlLadder k := rfl

/-- There is a first step. -/
lemma exists_toList_eq_cons {R : Type} {k : ℕ} (theta : Vector R (2 ^ k)) :
    ∃ first rest, theta.toList = first :: rest ∧ (first :: rest).length = 2 ^ k := by
  have hlength : theta.toList.length = 2 ^ k := theta.length_toList
  cases hlist : theta.toList with
  | nil =>
    rw [hlist] at hlength
    exact absurd hlength.symm (Nat.two_pow_pos k).ne'
  | cons first rest => exact ⟨first, rest, rfl, hlist ▸ hlength⟩

/-- A step after the first is one of the rest. -/
lemma any_rest_iff {R : Type} {k : ℕ} {theta : Vector R (2 ^ k)} {first : R} {rest : List R} (hlist : theta.toList = first :: rest)
    (counts : R → Prop) [DecidablePred counts] :
    (rest.any fun angle => counts angle) = true ↔ ∃ j : Fin (2 ^ k), 0 < j.val ∧ counts (theta.get j) := by
  have hlength : rest.length + 1 = 2 ^ k := by rw [← List.length_cons, ← hlist, theta.length_toList]
  have hget (j : Fin (2 ^ k)) : (first :: rest)[j.val]? = some (theta.get j) := by
    rw [← hlist, Vector.getElem?_toList, Vector.get_eq_getElem]
    exact Vector.getElem?_eq_getElem j.isLt
  simp only [List.any_eq_true, decide_eq_true_eq]
  constructor
  · rintro ⟨angle, hmem, hangle⟩
    obtain ⟨i, hi, rfl⟩ := List.getElem_of_mem hmem
    have hlt : i + 1 < 2 ^ k := by omega
    have hi' := hget ⟨i + 1, hlt⟩
    rw [List.getElem?_cons_succ, List.getElem?_eq_getElem hi] at hi'
    exact ⟨⟨i + 1, hlt⟩, Nat.succ_pos i, Option.some.inj hi' ▸ hangle⟩
  · rintro ⟨⟨j, hlt⟩, hpos, hangle⟩
    obtain ⟨i, rfl⟩ := Nat.exists_eq_add_one.2 hpos
    have hi := hget ⟨i + 1, hlt⟩
    rw [List.getElem?_cons_succ] at hi
    exact ⟨_, List.mem_of_getElem? hi, hangle⟩

/-- Once the angles of the steps are solved for, the whole ladder is written if a step after the first counts, and one
rotation at most otherwise. -/
lemma multiplexedRotation_of_solve {R : Type} [Scalar R] {width : ℕ} {table : SignTable R width} {angles : List R}
    {theta : Vector R (2 ^ (width - 1))} {first : R} {rest : List R} (axis : Axis) (target : ℕ) (cutoff : R)
    (hsolve : table.solve angles = .ok theta) (hlist : theta.toList = first :: rest) :
    multiplexedRotation axis angles target table cutoff =
      if rest.any fun angle => cutoff ≤ Scalar.abs angle then
        .ok (rotationLadder axis target cutoff (first :: rest) table.ladder)
      else if cutoff ≤ Scalar.abs first then .ok [.rotation target axis first] else .ok [] := by
  rw [multiplexedRotation, hsolve]
  simp only [bind, Except.bind, hlist]
  rfl

/-- The gates that are written for solved steps rotate the target by the signed sum of the steps that are kept. -/
lemma exists_gates_of_solve (axis : Axis) (target : ℕ) (cutoff : ℝ) {k : ℕ} {angles : List ℝ} {theta : Vector ℝ (2 ^ k)}
    (hsolve : (SignTable.build (k + 1)).solve angles = .ok theta) :
    ∃ gates : List (ElementaryGate ℝ),
      multiplexedRotation axis angles target (SignTable.build (k + 1)) cutoff = .ok gates ∧
      (∀ g ∈ gates, g.IsStep (· = axis) target (target + k + 1)) ∧
      ∀ n, target + k < n → gatesOperator n gates = wireOperator n target fun i =>
        axis.rotation (ladderAngle cutoff k theta.toList (field (target + 1) k i)) := by
  obtain ⟨first, rest, hlist, hlength⟩ := exists_toList_eq_cons theta
  have hunfold := multiplexedRotation_of_solve axis target cutoff hsolve hlist
  rw [SignTable.ladder_build] at hunfold
  rw [hlist]
  split at hunfold
  case isTrue hany =>
    -- some later step counts, so there is a control and the whole ladder is written
    obtain ⟨k, rfl⟩ : ∃ k', k = k' + 1 := by
      cases k with
      | zero =>
        have hnil : rest = [] := by simpa using hlength
        simp [hnil] at hany
      | succ k' => exact ⟨k', rfl⟩
    refine ⟨_, hunfold, isStep_rotationLadder _ _ fun c => lt_of_mem_controlLadder, fun n hn => ?_⟩
    rw [gatesOperator_rotationLadder (by omega)]
    refine wireOperator_congr fun i _ => ?_
    refine ladderBlock_controlLadder _ _ hlength (field_lt _ _ _) fun c hc => ?_
    simp [show c < k + 1 by omega]
  case isFalse hany =>
    have hrest : ∀ angle ∈ rest, ¬ cutoff ≤ |angle| := by simpa using hany
    simp only [ladderAngle_of_rest hlength hrest]
    split at hunfold
    case isTrue hfirst =>
      refine ⟨_, hunfold, ?_, fun n hn => ?_⟩
      · intro g hg
        rw [List.mem_singleton] at hg
        subst hg
        exact ⟨rfl, le_rfl, by omega⟩
      · rw [gatesOperator_cons, gatesOperator_nil, Matrix.one_mul, kept, if_pos (show cutoff ≤ |first| from hfirst)]
        rfl
    case isFalse hfirst =>
      refine ⟨_, hunfold, by simp, fun n hn => ?_⟩
      rw [gatesOperator_nil, kept, if_neg (show ¬ cutoff ≤ |first| from hfirst), rotation_zero, wireOperator_one]

/-- A multiplexed rotation rotates its target, where the `k` wires above it read `x`, by the angle of `x`, up to the
cutoff for each step of the ladder. -/
theorem multiplexedRotation_build (axis : Axis) (target : ℕ) {k : ℕ} (angles : List ℝ) (hlen : angles.length = 2 ^ k) (hcutoff : 0 ≤ cutoff) :
    ∃ (gates : List (ElementaryGate ℝ)) (β : ℕ → ℝ),
      multiplexedRotation axis angles target (SignTable.build (k + 1)) cutoff = .ok gates ∧
      (∀ x (hx : x < angles.length), |β x - angles[x]| ≤ 2 ^ k * cutoff) ∧
      (∀ g ∈ gates, g.IsStep (· = axis) target (target + k + 1)) ∧
      ∀ n, target + k < n →
        gatesOperator n gates = wireOperator n target fun i => axis.rotation (β (field (target + 1) k i)) := by
  obtain ⟨theta, hsolve, hsum⟩ := SignTable.solve_build (k + 1) angles hlen
  obtain ⟨gates, hgates, hsteps, hop⟩ := exists_gates_of_solve axis target cutoff hsolve
  refine ⟨gates, ladderAngle cutoff k theta.toList, hgates, fun x hx => ?_, hsteps, hop⟩
  have hget (j : Fin (2 ^ k)) : theta.get j = theta.toList.getD j 0 := by
    rw [List.getD_eq_getElem _ _ (by simp)]
    simp [Vector.get_eq_getElem]
  have hangle : ∑ j ∈ range (2 ^ k), walshSign x j * theta.toList.getD j 0 = angles[x] := by
    rw [← hsum x hx, Finset.sum_range]
    exact Finset.sum_congr rfl fun j _ => congrArg _ (hget j).symm
  rw [← hangle]
  exact abs_ladderAngle_sub_le hcutoff k theta.toList x

end Solved

section Count

variable {R : Type} [Scalar R] {axis : Axis} {target : ℕ} {cutoff : R}

/-- A ladder has one controlled-NOT for each of its steps. -/
lemma countP_rotationLadder (angles : List R) (controls : List ℕ) :
    (rotationLadder axis target cutoff angles controls).countP ElementaryGate.isEntangler =
      min angles.length controls.length := by
  induction angles generalizing controls with
  | nil => simp [rotationLadder]
  | cons angle angles ih =>
    cases controls with
    | nil => simp [rotationLadder]
    | cons control controls =>
      have hstep : (if cutoff ≤ Scalar.abs angle then
          [.rotation target axis angle, .entangler (target + 1 + control) target]
          else [ElementaryGate.entangler (target + 1 + control) target]).countP ElementaryGate.isEntangler = 1 := by
        split <;> rfl
      rw [rotationLadder, List.countP_append, hstep, ih, List.length_cons, List.length_cons]
      omega

/-- A ladder has one rotation at most for each of its angles. -/
lemma countP_isRotation_rotationLadder_le (angles : List R) (controls : List ℕ) :
    (rotationLadder axis target cutoff angles controls).countP ElementaryGate.isRotation ≤ angles.length := by
  induction angles generalizing controls with
  | nil => simp [rotationLadder]
  | cons angle angles ih =>
    cases controls with
    | nil => exact Nat.zero_le _
    | cons control controls =>
      have hstep : (if cutoff ≤ Scalar.abs angle then
          [.rotation target axis angle, .entangler (target + 1 + control) target]
          else [ElementaryGate.entangler (target + 1 + control) target]).countP ElementaryGate.isRotation ≤ 1 := by
        split
        · exact le_rfl
        · exact Nat.zero_le 1
      rw [rotationLadder, List.countP_append, List.length_cons, Nat.add_comm]
      exact Nat.add_le_add (ih controls) hstep

/-- The ladder is written as a whole if a step after the first counts, and then it has a controlled-NOT for each step;
otherwise there is none. -/
lemma countP_of_multiplexedRotation {k : ℕ} {angles : List R} {theta : Vector R (2 ^ k)} {gates : List (ElementaryGate R)}
    (hsolve : (SignTable.build (k + 1)).solve angles = .ok theta)
    (h : multiplexedRotation axis angles target (SignTable.build (k + 1)) cutoff = .ok gates) :
    gates.countP ElementaryGate.isEntangler =
      if ∃ j : Fin (2 ^ k), 0 < j.val ∧ cutoff ≤ Scalar.abs (theta.get j) then 2 ^ k else 0 := by
  obtain ⟨first, rest, hlist, hlength⟩ := exists_toList_eq_cons theta
  rw [multiplexedRotation_of_solve axis target cutoff hsolve hlist, SignTable.ladder_build] at h
  have hrest := any_rest_iff hlist fun angle => cutoff ≤ Scalar.abs angle
  rw [List.length_cons] at hlength
  split at h
  case isTrue hany =>
    cases h
    rw [if_pos (hrest.1 hany), countP_rotationLadder, List.length_cons, hlength]
    cases k with
    | zero =>
      obtain ⟨j, hpos, -⟩ := hrest.1 hany
      omega
    | succ k => rw [GrayCode.length_controlLadder, Nat.min_self]
  case isFalse hany =>
    rw [if_neg (mt hrest.2 hany)]
    split at h <;> cases h <;> rfl

end Count

section Rotation

variable {cutoff : ℝ}

/-- A multiplexed rotation is always found. Its gates are rotations of the target and controlled-NOTs from the `k` wires
above it, and on every register they rotate the target by one angle for each value of these wires, which is the given one
up to the cutoff for each of the `2^k` steps. There is no controlled-NOT if all solved angles but the first are below the
cutoff; otherwise there is a control, and a controlled-NOT for each step. -/
theorem multiplexedRotation_operator (axis : Axis) (target : ℕ) {k : ℕ} (angles : List ℝ) (hlen : angles.length = 2 ^ k)
    (hcutoff : 0 ≤ cutoff) :
    ∃ (theta : Vector ℝ (2 ^ k)) (gates : List (ElementaryGate ℝ)) (β : ℕ → ℝ),
      (SignTable.build (k + 1)).solve angles = .ok theta ∧
      multiplexedRotation axis angles target (SignTable.build (k + 1)) cutoff = .ok gates ∧
      (∀ g ∈ gates, g.IsStep (· = axis) target (target + k + 1)) ∧
      (∀ n, target + k < n →
        gatesOperator n gates = wireOperator n target fun i => axis.rotation (β (field (target + 1) k i))) ∧
      (∀ x (hx : x < angles.length), |β x - angles[x]| ≤ 2 ^ k * cutoff) ∧
      (cutoff = 0 → ∀ x (hx : x < angles.length), β x = angles[x]) ∧
      ((∀ j : Fin (2 ^ k), 0 < j.val → |theta.get j| < cutoff) → gates.countP ElementaryGate.isEntangler = 0) ∧
      ((∃ j : Fin (2 ^ k), 0 < j.val ∧ cutoff ≤ |theta.get j|) →
        1 ≤ k ∧ gates.countP ElementaryGate.isEntangler = 2 ^ k) := by
  obtain ⟨theta, hsolve, -⟩ := SignTable.solve_build (k + 1) angles hlen
  obtain ⟨gates, β, hgates, hclose, hsteps, hop⟩ := multiplexedRotation_build axis target angles hlen hcutoff
  have hcount := countP_of_multiplexedRotation hsolve hgates
  refine ⟨theta, gates, β, hsolve, hgates, hsteps, hop, hclose, fun hzero x hx => ?_, fun hbelow => ?_, fun hany => ⟨?_, ?_⟩⟩
  · have h := hclose x hx
    rw [hzero, mul_zero] at h
    exact sub_eq_zero.1 (abs_nonpos_iff.1 h)
  · refine hcount.trans (if_neg ?_)
    rintro ⟨j, hpos, hj⟩
    exact (hbelow j hpos).not_ge hj
  · obtain ⟨j, hpos, -⟩ := hany
    have hj := j.isLt
    cases k with
    | zero => omega
    | succ k => exact Nat.succ_pos k
  · exact hcount.trans (if_pos hany)

/-- A rotation of the second wire by one angle or another as the third wire reads. -/
theorem multiplexedRotation_operator_pair : ∃ gates : List (ElementaryGate ℝ),
    multiplexedRotation .y [1, 3] 1 (SignTable.build 2) (0 : ℝ) = .ok gates ∧
    gates.countP ElementaryGate.isEntangler = 2 ∧ ∀ n, 2 < n →
      gatesOperator n gates = wireOperator n 1 fun i => Axis.y.rotation (if i.testBit 2 then 3 else 1) := by
  obtain ⟨theta, gates, β, -, hgates, -, hop, -, hβ, -, hcount⟩ :=
    multiplexedRotation_operator .y 1 (k := 1) [1, 3] rfl (le_refl (0 : ℝ))
  refine ⟨gates, hgates, (hcount ⟨1, Nat.one_pos, abs_nonneg _⟩).2, fun n hn => ?_⟩
  rw [hop n hn]
  refine wireOperator_congr fun i _ => ?_
  have hfield : field 2 1 i = Nat.bit (i.testBit 2) 0 := by
    rw [field_succ, field, pow_zero, Nat.mod_one]
  rw [hfield]
  cases i.testBit 2
  · exact congrArg _ (hβ rfl 0 (by simp))
  · exact congrArg _ (hβ rfl 1 (by simp))

end Rotation

end CircuitSynthesis
