import Mathlib
import CircuitSynthesis.Proofs.Diagonal

/-!
# Diagonals that are products over their bits

If every set bit of an index multiplies its entry by a phase of that bit, then the phase difference is the same in all
pairs. Each second difference is then the angle of one, which is zero on every branch, and so the running sums are
constant (`pairPhases_of_ratio`). The solved angles of a constant are zero past the first
(`multiplexedRotation_replicate`), which makes each level collapse to a rotation at most. The phases left to the wires
above are again a product (`parentPhases_productDiagonal`), and `synthesizeDiagonal_product` goes through all levels.
-/

namespace CircuitSynthesis

open Complex (I exp)
open Finset (range)

section Constant

/-- Running sums of zeros stay where they start. -/
@[simp] lemma runningSums_replicate_zero (start : ℝ) (n : ℕ) :
    runningSums start (List.replicate n 0) = List.replicate (n + 1) start := by
  induction n with
  | zero => rfl
  | succ n ih => rw [List.replicate_succ, runningSums, add_zero, ih, ← List.replicate_succ]

variable {d : List (Amplitude ℝ)} {w : ℂ}

/-- The second entry of a pair is a multiple of the first. -/
def IsRatio (w : ℂ) (q : Amplitude ℝ × Amplitude ℝ) : Prop := q.1.toComplex ≠ 0 ∧ q.2.toComplex = q.1.toComplex * w

/-- Between two pairs of one ratio the second difference is the angle of one, whatever the angle of the ratio. -/
lemma IsRatio.secondDifference_eq_zero {q r : Amplitude ℝ × Amplitude ℝ} (hw : w ≠ 0) (hq : IsRatio w q)
    (hr : IsRatio w r) : (q.1 * r.2 / (q.2 * r.1)).arg = 0 := by
  obtain ⟨hq₀, hq⟩ := hq
  obtain ⟨hr₀, hr⟩ := hr
  have hone : q.1.toComplex * r.2.toComplex / (q.2.toComplex * r.1.toComplex) = 1 := by
    rw [hq, hr]
    field_simp
  rw [Amplitude.arg_eq, Amplitude.toComplex_div, Amplitude.toComplex_mul, Amplitude.toComplex_mul, hone, Complex.arg_one]

/-- Where all pairs have one ratio, the second differences vanish. -/
lemma secondDifferences_of_ratio (hw : w ≠ 0) (hratio : ∀ q ∈ pairs d, IsRatio w q) :
    secondDifferences d = List.replicate ((pairs d).length - 1) 0 := by
  apply List.eq_replicate_iff.2
  constructor
  · simp [secondDifferences]
  · intro t ht
    obtain ⟨y, hy, rfl⟩ := List.getElem_of_mem ht
    simp only [secondDifferences, List.getElem_zipWith]
    apply IsRatio.secondDifference_eq_zero hw
    · exact hratio _ (List.getElem_mem _)
    · exact hratio _ (List.mem_of_mem_tail (List.getElem_mem _))

/-- With one ratio for all pairs the phase difference is its angle in all of them. -/
lemma pairPhases_of_ratio (hw : w ≠ 0) (hratio : ∀ q ∈ pairs d, IsRatio w q) :
    pairPhases d = List.replicate (d.length / 2) w.arg := by
  match d with
  | [] => rfl
  | [_] => simp [pairPhases]
  | a :: b :: rest =>
    have hlen : (a :: b :: rest).length / 2 = (pairs rest).length + 1 := by
      rw [← length_pairs]
      rfl
    have hfirst : (b / a).toComplex = w := by
      obtain ⟨ha, hb⟩ := hratio (a, b) List.mem_cons_self
      rw [Amplitude.toComplex_div, hb, mul_div_cancel_left₀ _ ha]
    rw [pairPhases, secondDifferences_of_ratio hw hratio, runningSums_replicate_zero, Amplitude.arg_eq, hfirst, hlen]
    rfl

/-- One angle for all values of the controls is solved by that angle in the first step and nothing after it. -/
lemma SignTable.get_candidate_const (k : ℕ) (angle : ℝ) :
    (candidate (k + 1) fun _ => angle).get = Pi.single ⟨0, Nat.two_pow_pos k⟩ angle := by
  apply Eq.symm
  -- the signs of the first step are all positive, and no other steps combine to the same angles
  apply signs_mulVec_eq_iff.1
  funext x
  rw [Matrix.mulVec_single, Pi.smul_apply, Matrix.col_apply, signs_apply, walshSign_zero_right, op_smul_eq_mul, one_mul]

/-- A constant list of angles is solved by that angle alone. -/
lemma SignTable.toList_candidate_const (k : ℕ) (angle : ℝ) :
    (candidate (k + 1) fun _ => angle).toList = angle :: List.replicate (2 ^ k - 1) 0 := by
  apply List.ext_getElem
  · rw [Vector.length_toList, List.length_cons, List.length_replicate]
    exact (Nat.sub_add_cancel (Nat.two_pow_pos k)).symm
  · intro j hj _
    rw [Vector.length_toList] at hj
    have hget := congrFun (get_candidate_const k angle) ⟨j, hj⟩
    rw [Vector.getElem_toList, ← Vector.get_eq_getElem (n := 2 ^ k) _ ⟨j, hj⟩, hget]
    cases j with
    | zero => rfl
    | succ j =>
      rw [List.getElem_cons_succ, List.getElem_replicate]
      exact Pi.single_eq_of_ne (by simp) _

/-- Rotations by one angle, whatever the controls read, become a single rotation or none. -/
lemma multiplexedRotation_replicate {cutoff : ℝ} (hcutoff : 0 < cutoff) (axis : Axis) (target k : ℕ) (angle : ℝ) :
    multiplexedRotation axis (List.replicate (2 ^ k) angle) target (SignTable.build (k + 1)) cutoff =
      .ok (if cutoff ≤ |angle| then [.rotation target axis angle] else []) := by
  have hlen : (List.replicate (2 ^ k) angle).length = 2 ^ (k + 1 - 1) := List.length_replicate
  have hsolve := SignTable.solve_build_eq (k + 1) _ hlen
  simp only [List.get_eq_getElem, List.getElem_replicate] at hsolve
  have hrest : ((List.replicate (2 ^ k - 1) (0 : ℝ)).any fun a => cutoff ≤ Scalar.abs a) = false := by
    simp [hcutoff.not_ge]
  rw [multiplexedRotation_of_solve axis target cutoff hsolve (SignTable.toList_candidate_const k angle), hrest,
    if_neg Bool.false_ne_true]
  exact (apply_ite Except.ok _ _ _).symm

end Constant

section Product

variable {cutoff : ℝ}

/-- The phase `t`, and the phase `p b` for each bit `b` below `m` that is set in `x`. -/
noncomputable def productPhase (t : ℝ) (p : ℕ → ℝ) (m x : ℕ) : ℂ :=
  exp (t * I) * ∏ b ∈ range m, if x.testBit b then exp (p b * I) else 1

/-- The diagonal whose entries are the products of the phases of their bits. -/
noncomputable def productDiagonal (t : ℝ) (p : ℕ → ℝ) (m : ℕ) : List (Amplitude ℝ) :=
  (List.range (2 ^ m)).map fun x => .ofComplex (productPhase t p m x)

/-- The angle of a phase, brought between `-π` and `π`. -/
noncomputable def principal (s : ℝ) : ℝ := (exp (s * I)).arg

/-- The principal angle of zero is zero. -/
@[simp] lemma principal_zero : principal 0 = 0 := by simp [principal]

/-- One rotation for each bit whose phase is not below the cutoff, the lowest bit first. -/
noncomputable def productRotations (cutoff : ℝ) (p : ℕ → ℝ) (m lo : ℕ) : List (ElementaryGate ℝ) :=
  ((List.range m).filter fun b => cutoff ≤ |principal (p b)|).map fun b => .rotation (lo + b) .z (principal (p b))

variable (t : ℝ) (p : ℕ → ℝ) (m : ℕ)

/-- A product diagonal has an entry for each basis state. -/
@[simp] lemma length_productDiagonal : (productDiagonal t p m).length = 2 ^ m := by simp [productDiagonal]

@[simp] lemma toComplex_getElem_productDiagonal {x : ℕ} (hx : x < (productDiagonal t p m).length) :
    (productDiagonal t p m)[x].toComplex = productPhase t p m x := by simp [productDiagonal]

/-- A product of phases has modulus one. -/
lemma norm_productPhase (x : ℕ) : ‖productPhase t p m x‖ = 1 := by
  rw [productPhase, norm_mul, Complex.norm_exp_ofReal_mul_I, one_mul, norm_prod]
  apply Finset.prod_eq_one
  intro b _
  split
  · exact Complex.norm_exp_ofReal_mul_I _
  · exact norm_one

/-- The lowest bit contributes its own phase. -/
lemma productPhase_bit (b : Bool) (y : ℕ) :
    productPhase t p (m + 1) (Nat.bit b y) = productPhase t (p ∘ (· + 1)) m y * if b then exp (p 0 * I) else 1 := by
  rw [productPhase, productPhase, Finset.prod_range_succ', mul_assoc]
  simp only [Nat.testBit_bit_succ, Nat.testBit_bit_zero, Function.comp_apply]

/-- An even index has the phase of its half. -/
lemma productPhase_two_mul (y : ℕ) : productPhase t p (m + 1) (2 * y) = productPhase t (p ∘ (· + 1)) m y := by
  have h := productPhase_bit t p m false y
  rwa [if_neg Bool.false_ne_true, mul_one] at h

/-- An odd index has the phase of its half and that of the lowest bit. -/
lemma productPhase_two_mul_add_one (y : ℕ) :
    productPhase t p (m + 1) (2 * y + 1) = productPhase t (p ∘ (· + 1)) m y * exp (p 0 * I) := by
  have h := productPhase_bit t p m true y
  rwa [if_pos rfl] at h

/-- A phase in front adds to the global one. -/
lemma exp_mul_productPhase (s : ℝ) (x : ℕ) : exp (s * I) * productPhase t p m x = productPhase (s + t) p m x := by
  rw [productPhase, productPhase, Complex.exp_ofReal_add_mul_I, mul_assoc]

/-- All pairs of neighbours have the phase of the lowest bit as their ratio. -/
lemma isRatio_productDiagonal : ∀ q ∈ pairs (productDiagonal t p (m + 1)), IsRatio (exp (p 0 * I)) q := by
  intro q hq
  obtain ⟨y, hy, rfl⟩ := List.getElem_of_mem hq
  simp only [getElem_pairs _ hy, IsRatio, List.get_eq_getElem, toComplex_getElem_productDiagonal, productPhase_two_mul,
    productPhase_two_mul_add_one, and_true]
  apply norm_ne_zero_iff.1
  rw [norm_productPhase]
  exact one_ne_zero

/-- In a product diagonal all pairs differ by the phase of the lowest bit. -/
lemma pairPhases_productDiagonal :
    pairPhases (productDiagonal t p (m + 1)) = List.replicate (2 ^ m) (principal (p 0)) := by
  rw [pairPhases_of_ratio (Complex.exp_ne_zero _) (isRatio_productDiagonal t p m), length_productDiagonal, pow_succ,
    Nat.mul_div_cancel _ two_pos, principal]

/-- The phases left to the wires above are again a product, over the bits of these wires. -/
lemma parentPhases_productDiagonal : parentPhases (productDiagonal t p (m + 1)) =
    productDiagonal (principal (p 0) / 2 + t) (p ∘ (· + 1)) m := by
  apply List.ext_getElem
  · rw [length_parentPhases, length_productDiagonal, length_productDiagonal, pow_succ, Nat.mul_div_cancel _ two_pos]
  · intro y hy _
    apply Amplitude.toComplex_injective
    rw [toComplex_getElem_productDiagonal, ← exp_mul_productPhase, ← productPhase_two_mul]
    simp [parentPhases, pairPhases_productDiagonal, getElem_pairs, mul_comm]

/-- The rotations of a product, the one for the lowest bit first. -/
lemma productRotations_succ (lo : ℕ) : productRotations cutoff p (m + 1) lo =
    (if cutoff ≤ |principal (p 0)| then [.rotation lo .z (principal (p 0))] else []) ++
      productRotations cutoff (p ∘ (· + 1)) m (lo + 1) := by
  have hrest : (((List.range m).map Nat.succ).filter fun b => decide (cutoff ≤ |principal (p b)|)).map
      (fun b => ElementaryGate.rotation (lo + b) .z (principal (p b))) =
      productRotations cutoff (p ∘ (· + 1)) m (lo + 1) := by
    simp only [List.filter_map, List.map_map, productRotations, Function.comp_def, Nat.succ_eq_add_one, add_right_comm,
      ← add_assoc]
  rw [productRotations, List.range_succ_eq_map, List.filter_cons, ← hrest]
  split
  case isTrue h => rw [if_pos (of_decide_eq_true h), List.map_cons, add_zero, List.singleton_append]
  case isFalse h => rw [if_neg (by simpa using h), List.nil_append]

/-- Each level of a product emits the rotation of its bit alone. -/
lemma diagonalLevels_productDiagonal (hcutoff : 0 < cutoff) (lo : ℕ) :
    (diagonalLevels cutoff m (productDiagonal t p m) lo).Gives
      (.ok (productRotations cutoff p m lo, principal (t + ∑ b ∈ range m, principal (p b) / 2))) := by
  induction m generalizing t p lo with
  | zero =>
    have hphase : ((productDiagonal t p 0).headD 0).arg = principal t := by
      simp [productDiagonal, productPhase, Amplitude.arg_eq, principal]
    rw [Finset.sum_range_zero, add_zero, ← hphase]
    exact Synthesis.gives_pure _
  | succ m ih =>
    have hlevel : multiplexedRotation .z (pairPhases (productDiagonal t p (m + 1))) lo (SignTable.build (m + 1)) cutoff =
        .ok (if cutoff ≤ |principal (p 0)| then [.rotation lo .z (principal (p 0))] else []) := by
      rw [pairPhases_productDiagonal, multiplexedRotation_replicate hcutoff]
    -- half of the angle goes into the common phase, the other bits keep theirs
    have hrest := ih (principal (p 0) / 2 + t) (p ∘ (· + 1)) (lo + 1)
    rw [← parentPhases_productDiagonal] at hrest
    have hphase : t + ∑ b ∈ range (m + 1), principal (p b) / 2 =
        principal (p 0) / 2 + t + ∑ b ∈ range m, principal ((p ∘ (· + 1)) b) / 2 := by
      rw [Finset.sum_range_succ']
      simp only [Function.comp_apply]
      ring
    rw [productRotations_succ, hphase]
    exact (Synthesis.gives_table _).bind ((Synthesis.gives_lift hlevel).bind (hrest.bind (Synthesis.gives_pure _)))

/-- The entries of a product diagonal have modulus one. -/
lemma norm_of_mem_productDiagonal {z : Amplitude ℝ} (hz : z ∈ productDiagonal t p m) : ‖z.toComplex‖ = 1 := by
  obtain ⟨x, hx, rfl⟩ := List.getElem_of_mem hz
  rw [toComplex_getElem_productDiagonal, norm_productPhase]

/-- Entries of modulus one are their own phases. -/
lemma map_unitPhase_productDiagonal : (productDiagonal t p m).map unitPhase = productDiagonal t p m := by
  apply (List.map_congr_left _).trans (List.map_id _)
  intro z hz
  apply Amplitude.toComplex_injective
  rw [toComplex_unitPhase, norm_of_mem_productDiagonal t p m hz, Complex.ofReal_one, div_one, id_eq]

/-- A product diagonal needs a rotation for each of its phases and no controlled-NOT. -/
lemma synthesizeDiagonal_productDiagonal (hcutoff : 0 < cutoff) (lo : ℕ) :
    (synthesizeDiagonal (productDiagonal t p m) lo cutoff).Gives
      (.ok (productRotations cutoff p m lo, principal (t + ∑ b ∈ range m, principal (p b) / 2))) := by
  apply synthesizeDiagonal_of_levels _ (length_productDiagonal t p m)
  · intro z hz
    rw [norm_of_mem_productDiagonal t p m hz]
    exact minMagnitude_le_one
  · rw [map_unitPhase_productDiagonal]
    exact diagonalLevels_productDiagonal t p m hcutoff lo

/-- Without phases of the bits all entries are the same. -/
lemma productDiagonal_scalar : productDiagonal t 0 m = List.replicate (2 ^ m) (.phase t) := by
  apply List.eq_replicate_iff.2
  constructor
  · exact length_productDiagonal t 0 m
  · intro z hz
    obtain ⟨x, hx, rfl⟩ := List.getElem_of_mem hz
    apply Amplitude.toComplex_injective
    rw [toComplex_getElem_productDiagonal, Amplitude.toComplex_phase, productPhase]
    simp

/-- A product of no phases needs no rotation. -/
lemma productRotations_scalar (hcutoff : 0 < cutoff) (lo : ℕ) : productRotations cutoff 0 m lo = [] := by
  simp [productRotations, hcutoff.not_ge]

/-- On a diagonal whose entries are products of phases of their bits, the synthesis emits no controlled-NOT but, for each
bit in ascending order, one rotation of the wire of that bit by the angle of its phase, unless that angle is below the
cutoff. On a diagonal of equal entries it emits nothing. -/
theorem synthesizeDiagonal_product (hcutoff : 0 < cutoff) (lo : ℕ) :
    (synthesizeDiagonal (productDiagonal t p m) lo cutoff).Gives
      (.ok (((List.range m).filter fun b => cutoff ≤ |(exp (p b * I)).arg|).map fun b =>
        .rotation (lo + b) .z (exp (p b * I)).arg, principal (t + ∑ b ∈ range m, principal (p b) / 2))) ∧
    (synthesizeDiagonal (List.replicate (2 ^ m) (.phase t)) lo cutoff).Gives (.ok ([], principal t)) := by
  constructor
  · exact synthesizeDiagonal_productDiagonal t p m hcutoff lo
  · have h := synthesizeDiagonal_productDiagonal t 0 m hcutoff lo
    rw [productDiagonal_scalar, productRotations_scalar m hcutoff] at h
    simpa using h

/-- The sign of the lower of two wires. -/
theorem synthesizeDiagonal_product_sign : ∃ phase : ℝ,
    (synthesizeDiagonal [1, -1, 1, -1] 5 (1 : ℝ)).Gives (.ok ([.rotation 5 .z Real.pi], phase)) := by
  let p (b : ℕ) : ℝ := if b = 0 then Real.pi else 0
  have hdiagonal : productDiagonal 0 p 2 = [1, -1, 1, -1] := by
    apply List.ext_getElem
    · exact length_productDiagonal 0 p 2
    · intro x hx _
      apply Amplitude.toComplex_injective
      rw [length_productDiagonal] at hx
      rw [toComplex_getElem_productDiagonal, productPhase]
      interval_cases x <;> simp [Finset.prod_range_succ, p, Nat.testBit_succ]
  have hrotations : ((List.range 2).filter fun b => decide (1 ≤ |(exp (p b * I)).arg|)).map (fun b =>
      ElementaryGate.rotation (5 + b) .z (exp (p b * I)).arg) = [.rotation 5 .z Real.pi] := by
    have hpi : 1 ≤ |Real.pi| := by
      rw [abs_of_pos Real.pi_pos]
      exact le_trans (by norm_num) Real.pi_gt_three.le
    simp [List.range_succ, p, hpi]
  have h := (synthesizeDiagonal_product 0 p 2 (one_pos : (0 : ℝ) < 1) 5).1
  rw [hdiagonal, hrotations] at h
  exact ⟨_, h⟩

end Product

end CircuitSynthesis
