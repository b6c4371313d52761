import Mathlib
import CircuitSynthesis.Diagonal
import CircuitSynthesis.Proofs.Synthesis
import CircuitSynthesis.Proofs.Multiplexed

/-!
# The operator of a synthesized diagonal

One level of the synthesis splits phases `a, b` of a pair into a common phase `p` for the wires above and an angle `t`
with `a = p·e^{-it/2}` and `b = p·e^{it/2}` (`forall₂_pairPhases`). A running sum of angles may leave `(-π, π]`, but its
exponential is always the quotient of the pair, so that no branch of the angle matters. By induction over the levels
`diagonalLevels_gives` finds the operator, with an error that each level adds to by half of what its ladder leaves out.
The main statement is `synthesizeDiagonal_operator`.
-/

namespace CircuitSynthesis

open Complex (I exp)
open Matrix (diagonal)

section Pairs

variable {α R : Type}

/-- Half as many pairs as entries, an odd one out being dropped. -/
@[simp] lemma length_pairs : ∀ l : List α, (pairs l).length = l.length / 2
  | [] => by simp [pairs]
  | [_] => by simp [pairs]
  | _ :: _ :: rest => by
    simp only [pairs, List.length_cons, length_pairs rest]
    omega

/-- Half of a list for one wire more is a list for the wires. -/
lemma half_length {l : List α} {m : ℕ} (hlen : l.length = 2 ^ (m + 1)) : l.length / 2 = 2 ^ m := by
  rw [hlen, pow_succ, Nat.mul_div_cancel _ Nat.two_pos]

/-- Pairing halves a list. -/
lemma length_map_pairs {β : Type} (f : α × α → β) {l : List α} {m : ℕ} (hlen : l.length = 2 ^ (m + 1)) :
    ((pairs l).map f).length = 2 ^ m := by
  rw [List.length_map, length_pairs, half_length hlen]

/-- A pair holds two neighbouring entries. -/
lemma getElem_pairs : ∀ (l : List α) {y : ℕ} (hy : y < (pairs l).length),
    (pairs l)[y] = (l.get ⟨2 * y, by simp at hy; omega⟩, l.get ⟨2 * y + 1, by simp at hy; omega⟩)
  | [], _, hy => by simp [pairs] at hy
  | [_], _, hy => by simp [pairs] at hy
  | _ :: _ :: _, 0, _ => rfl
  | _ :: _ :: rest, _ + 1, hy => getElem_pairs rest (Nat.lt_of_succ_lt_succ hy)

/-- Running sums have one entry more, for their start. -/
lemma length_runningSums [Scalar R] (start : R) (xs : List R) : (runningSums start xs).length = xs.length + 1 := by
  induction xs generalizing start with
  | nil => rfl
  | cons x xs ih => rw [runningSums, List.length_cons, ih, List.length_cons]

/-- There is a phase difference for each pair. -/
lemma length_pairPhases [Scalar R] : ∀ d : List (Amplitude R), (pairPhases d).length = d.length / 2
  | [] => by simp [pairPhases]
  | [_] => by simp [pairPhases]
  | _ :: _ :: rest => by
    simp only [pairPhases, length_runningSums, secondDifferences, pairs, List.tail_cons, List.length_zipWith,
      List.length_cons, length_pairs]
    omega

/-- The amplitude of a list at an index, zero past its end. -/
noncomputable def entry (v : List (Amplitude ℝ)) (x : ℕ) : ℂ := (v.getD x 0).toComplex

end Pairs

section Phases

/-- A running sum of second differences keeps the quotient of each pair as its exponential. -/
lemma forall₂_runningSums (p : Amplitude ℝ × Amplitude ℝ) (ps : List (Amplitude ℝ × Amplitude ℝ)) (start : ℝ)
    (hunit : ∀ q ∈ p :: ps, ‖q.1.toComplex‖ = 1 ∧ ‖q.2.toComplex‖ = 1)
    (hstart : exp (start * I) * p.1.toComplex = p.2.toComplex) :
    List.Forall₂ (fun q t => exp ((t : ℝ) * I) * q.1.toComplex = q.2.toComplex) (p :: ps)
      (runningSums start (List.zipWith (fun (a, b) (c, e) => (a * e / (b * c)).arg) (p :: ps) ps)) := by
  induction ps generalizing p start with
  | nil =>
    rw [List.zipWith_nil_right, runningSums]
    exact .cons hstart .nil
  | cons q ps ih =>
    obtain ⟨⟨hp₁, hp₂⟩, hq⟩ := List.forall_mem_cons.1 hunit
    obtain ⟨⟨hq₁, hq₂⟩, -⟩ := List.forall_mem_cons.1 hq
    have hp₂' : p.2.toComplex ≠ 0 := norm_ne_zero_iff.1 (by rw [hp₂]; exact one_ne_zero)
    have hq₁' : q.1.toComplex ≠ 0 := norm_ne_zero_iff.1 (by rw [hq₁]; exact one_ne_zero)
    rw [List.zipWith_cons_cons, runningSums]
    -- the quotient of the four entries takes the turn of one pair to that of the next
    refine .cons hstart (ih q _ hq ?_)
    have hstep : exp (((p.1 * q.2 / (p.2 * q.1)).arg : ℝ) * I) =
        p.1.toComplex * q.2.toComplex / (p.2.toComplex * q.1.toComplex) := by
      rw [Amplitude.arg_eq, Complex.exp_arg_mul_I_of_norm_eq_one] <;> simp [hp₁, hp₂, hq₁, hq₂]
    have hsum : exp (((start + (p.1 * q.2 / (p.2 * q.1)).arg : ℝ) : ℂ) * I) =
        exp (start * I) * (p.1.toComplex * q.2.toComplex / (p.2.toComplex * q.1.toComplex)) := by
      rw [← hstep, Complex.exp_ofReal_add_mul_I]
    change exp (((start + (p.1 * q.2 / (p.2 * q.1)).arg : ℝ) : ℂ) * I) * _ = _
    rw [hsum]
    calc exp (start * I) * (p.1.toComplex * q.2.toComplex / (p.2.toComplex * q.1.toComplex)) * q.1.toComplex
        = exp (start * I) * p.1.toComplex * (q.2.toComplex / p.2.toComplex) := by field_simp
      _ = q.2.toComplex := by rw [hstart]; field_simp

/-- Each phase difference is an angle that turns the first entry of its pair into the second. -/
lemma forall₂_pairPhases (d : List (Amplitude ℝ)) (hunit : ∀ z ∈ d, ‖z.toComplex‖ = 1) :
    List.Forall₂ (fun q t => exp ((t : ℝ) * I) * q.1.toComplex = q.2.toComplex) (pairs d) (pairPhases d) := by
  match d, hunit with
  | [], _ => exact .nil
  | [_], _ => exact .nil
  | a :: b :: rest, hunit =>
    have hpairs : ∀ q ∈ pairs (a :: b :: rest), ‖q.1.toComplex‖ = 1 ∧ ‖q.2.toComplex‖ = 1 := by
      intro q hq
      obtain ⟨y, hy, rfl⟩ := List.getElem_of_mem hq
      rw [getElem_pairs _ hy]
      exact ⟨hunit _ (List.getElem_mem _), hunit _ (List.getElem_mem _)⟩
    have ha : ‖a.toComplex‖ = 1 := hunit a (by simp)
    have hb : ‖b.toComplex‖ = 1 := hunit b (by simp)
    have hne : a.toComplex ≠ 0 := norm_ne_zero_iff.1 (by rw [ha]; exact one_ne_zero)
    refine forall₂_runningSums (a, b) (pairs rest) _ hpairs ?_
    rw [Amplitude.arg_eq, Complex.exp_arg_mul_I_of_norm_eq_one (by simp [ha, hb]), Amplitude.toComplex_div]
    field_simp

end Phases

section Levels

variable {cutoff : ℝ}

/-- The factor by which a rotation about the third axis turns a basis state. -/
noncomputable def turn (b : Bool) (t : ℝ) : ℂ := exp ((if b then t / 2 else -t / 2 : ℝ) * I)

/-- A turn has modulus one. -/
lemma norm_turn (b : Bool) (t : ℝ) : ‖turn b t‖ = 1 := Complex.norm_exp_ofReal_mul_I _

/-- Two turns are no farther apart than half of their angles. -/
lemma norm_turn_sub_le (b : Bool) (s t : ℝ) : ‖turn b s - turn b t‖ ≤ |s - t| / 2 := by
  refine (Complex.norm_exp_mul_I_sub_exp_mul_I_le _ _).trans_eq ?_
  cases b
  · rw [if_neg Bool.false_ne_true, if_neg Bool.false_ne_true, ← sub_div, abs_div, abs_two, ← abs_neg]
    ring_nf
  · rw [if_pos rfl, if_pos rfl, ← sub_div, abs_div, abs_two]

/-- The phases that a level leaves to the wires above. -/
noncomputable def parentPhases (d : List (Amplitude ℝ)) : List (Amplitude ℝ) :=
  List.zipWith (fun (a, _) t => a * Amplitude.phase (t / Scalar.two)) (pairs d) (pairPhases d)

variable {d : List (Amplitude ℝ)}

/-- The parents are half as many. -/
lemma length_parentPhases : (parentPhases d).length = d.length / 2 := by
  rw [parentPhases, List.length_zipWith, length_pairPhases, length_pairs, Nat.min_self]

variable (hunit : ∀ z ∈ d, ‖z.toComplex‖ = 1)

include hunit

/-- Turning a parent by half the phase difference either way gives back its pair. -/
lemma turn_mul_parentPhases {y : ℕ} {b : Bool} (hy : y < (pairPhases d).length) (hy' : y < (parentPhases d).length)
    (hx : Nat.bit b y < d.length) :
    turn b (pairPhases d)[y] * (parentPhases d)[y].toComplex = d[Nat.bit b y].toComplex := by
  have hhalf : y < d.length / 2 := by rwa [length_pairPhases] at hy
  have hlow : 2 * y < d.length := by omega
  have hpair := (List.forall₂_iff_get.1 (forall₂_pairPhases d hunit)).2 y (by simpa using hhalf) hy
  simp only [List.get_eq_getElem, getElem_pairs] at hpair
  have hparent : (parentPhases d)[y].toComplex = d[2 * y].toComplex * exp (((pairPhases d)[y] / 2 : ℝ) * I) := by
    simp [parentPhases, getElem_pairs]
  rw [hparent]
  cases b
  · rw [turn, if_neg Bool.false_ne_true, mul_left_comm, ← Complex.exp_ofReal_add_mul_I]
    simp [neg_div, Nat.bit]
  · rw [turn, if_pos rfl, mul_left_comm, ← Complex.exp_ofReal_add_mul_I, add_halves, mul_comm, hpair]
    simp [Nat.bit]

/-- The phases of the parents have modulus one as well. -/
lemma norm_parentPhases : ∀ z ∈ parentPhases d, ‖z.toComplex‖ = 1 := by
  intro z hz
  obtain ⟨y, hy, rfl⟩ := List.getElem_of_mem hz
  have hhalf : y < d.length / 2 := by rwa [length_parentPhases] at hy
  have h := congrArg norm (turn_mul_parentPhases hunit (b := false) (by rwa [length_pairPhases]) hy
    (by simp [Nat.bit]; omega))
  rwa [norm_mul, norm_turn, one_mul, hunit _ (List.getElem_mem _)] at h

/-- A turn adds half of what its angle is off to the error of the parent. -/
lemma norm_turn_mul_sub_le {y : ℕ} {b : Bool} (hy : y < (pairPhases d).length) (hy' : y < (parentPhases d).length)
    (hx : Nat.bit b y < d.length) (t : ℝ) (w : ℂ) :
    ‖turn b t * w - d[Nat.bit b y].toComplex‖ ≤ ‖w - (parentPhases d)[y].toComplex‖ + |t - (pairPhases d)[y]| / 2 := by
  rw [← turn_mul_parentPhases hunit hy hy']
  calc ‖turn b t * w - turn b (pairPhases d)[y] * (parentPhases d)[y].toComplex‖
      = ‖turn b t * (w - (parentPhases d)[y].toComplex) +
          (turn b t - turn b (pairPhases d)[y]) * (parentPhases d)[y].toComplex‖ := by ring_nf
    _ ≤ ‖w - (parentPhases d)[y].toComplex‖ + ‖turn b t - turn b (pairPhases d)[y]‖ := by
        refine (norm_add_le _ _).trans_eq ?_
        rw [norm_mul, norm_mul, norm_turn, one_mul, norm_parentPhases hunit _ (List.getElem_mem _), mul_one]
    _ ≤ ‖w - (parentPhases d)[y].toComplex‖ + |t - (pairPhases d)[y]| / 2 := by
        gcongr
        exact norm_turn_sub_le _ _ _

end Levels

section Synthesis

variable {cutoff : ℝ}

/-- Rotations about the third axis, whose angles another wire selects, are diagonal. -/
lemma wireOperator_rotation_z (n target : ℕ) (β : ℕ → ℝ) :
    wireOperator n target (fun i => Axis.z.rotation (β i)) =
      diagonal fun i : Fin (2 ^ n) => turn (i.val.testBit target) (β i) := by
  simp only [rotation_z]
  exact wireOperator_diagonal fun i b => turn b (β i)

/-- The levels realize the phases on the wires from `target` on. Each ladder of `2^k` steps adds half of what it may
leave out to the error of each phase. -/
lemma diagonalLevels_gives (hcutoff : 0 ≤ cutoff) (wires : ℕ) (d : List (Amplitude ℝ)) (hlen : d.length = 2 ^ wires)
    (hunit : ∀ z ∈ d, ‖z.toComplex‖ = 1) (target : ℕ) :
    ∃ (gates : List (ElementaryGate ℝ)) (phase : ℝ) (e : ℕ → ℂ),
      (diagonalLevels cutoff wires d target).Gives (.ok (gates, phase)) ∧
      (∀ g ∈ gates, g.IsStep (· = .z) target (target + wires)) ∧
      (∀ x (hx : x < d.length), ‖e x - d[x].toComplex‖ ≤ (2 ^ wires - 1) * cutoff / 2) ∧
      ∀ n, target + wires ≤ n →
        exp (phase * I) • gatesOperator n gates = diagonal fun i : Fin (2 ^ n) => e (field target wires i) := by
  induction wires generalizing d target with
  | zero =>
    obtain ⟨z, rfl⟩ : ∃ z, d = [z] := List.length_eq_one_iff.1 hlen
    have hz : exp ((z.arg : ℝ) * I) = z.toComplex := Complex.exp_arg_mul_I_of_norm_eq_one (hunit z (by simp))
    refine ⟨[], z.arg, fun _ => z.toComplex, Synthesis.gives_pure _, by simp, ?_, fun n _ => ?_⟩
    · intro x hx
      have : x = 0 := by simpa using hx
      subst this
      simp
    · rw [hz, gatesOperator_nil, Matrix.smul_one_eq_diagonal]
  | succ wires ih =>
    have hhalf := half_length hlen
    obtain ⟨level, β, hlevel, hβ, hsteps, hop⟩ := multiplexedRotation_build .z target
      (pairPhases d) ((length_pairPhases _).trans hhalf) hcutoff
    obtain ⟨rest, phase, e, hrest, hsteps', he, hop'⟩ := ih (parentPhases d)
      (length_parentPhases.trans hhalf) (norm_parentPhases hunit) (target + 1)
    refine ⟨level ++ rest, phase, fun x => turn (x.testBit 0) (β (x / 2)) * e (x / 2), ?_, ?_, ?_, ?_⟩
    · exact (Synthesis.gives_table _).bind ((Synthesis.gives_lift hlevel).bind (hrest.bind (Synthesis.gives_pure _)))
    · intro g hg
      rcases List.mem_append.1 hg with hg | hg
      · exact (hsteps g hg).mono (fun _ h => h) le_rfl (by omega)
      · exact (hsteps' g hg).mono (fun _ h => h) (by omega) (by omega)
    · intro x hx
      cases x using Nat.bitCasesOn with
      | bit b y =>
        have hy : y < d.length / 2 := by
          cases b <;> simp [Nat.bit] at hx <;> omega
        have hphase : y < (pairPhases d).length := by rwa [length_pairPhases]
        have hparent : y < (parentPhases d).length := by rwa [length_parentPhases]
        simp only [Nat.testBit_bit_zero, Nat.bit_div_two]
        calc ‖turn b (β y) * e y - d[Nat.bit b y].toComplex‖
            ≤ ‖e y - (parentPhases d)[y].toComplex‖ + |β y - (pairPhases d)[y]| / 2 :=
              norm_turn_mul_sub_le hunit hphase hparent hx _ _
          _ ≤ (2 ^ wires - 1) * cutoff / 2 + 2 ^ wires * cutoff / 2 :=
              add_le_add (he y hparent) (div_le_div_of_nonneg_right (hβ y hphase) zero_le_two)
          _ = (2 ^ (wires + 1) - 1) * cutoff / 2 := by ring
    · -- diagonals commute, so it does not matter that the wires above come last
      intro n hn
      rw [gatesOperator_append, ← Matrix.smul_mul, hop' n (by omega), hop n (by omega), wireOperator_rotation_z,
        Matrix.diagonal_mul_diagonal]
      congr 1
      funext i
      simp only [field_succ, Nat.testBit_bit_zero, Nat.bit_div_two]
      exact mul_comm _ _

/-- An entry divided by its modulus. -/
noncomputable def unitPhase (z : Amplitude ℝ) : Amplitude ℝ := z.divReal z.norm

/-- A unit phase is a number over its modulus. -/
lemma toComplex_unitPhase (z : Amplitude ℝ) : (unitPhase z).toComplex = z.toComplex / ‖z.toComplex‖ :=
  Amplitude.toComplex_divReal _ _

/-- A number that is not zero has a unit phase of modulus one. -/
lemma norm_unitPhase {z : Amplitude ℝ} (hz : z.toComplex ≠ 0) : ‖(unitPhase z).toComplex‖ = 1 := by
  rw [toComplex_unitPhase, norm_div, Complex.norm_real, norm_norm, div_self (norm_ne_zero_iff.2 hz)]

/-- The smallest modulus that is accepted is positive. -/
lemma minMagnitude_pos : (0 : ℝ) < minMagnitude := by
  change (0 : ℝ) < 1e-12
  norm_num

/-- Phases that are far enough from zero are normalized. -/
lemma normalizePhases_eq_ok (d : List (Amplitude ℝ)) (hd : ∀ z ∈ d, minMagnitude ≤ ‖z.toComplex‖) (index : ℕ) :
    normalizePhases d index = .ok (d.map unitPhase) := by
  induction d generalizing index with
  | nil => rfl
  | cons z d ih =>
    rw [List.forall_mem_cons] at hd
    have hz : ¬ z.norm < minMagnitude := not_lt.2 hd.1
    rw [normalizePhases, ih hd.2]
    simp [hz, bind, Except.bind, pure, Except.pure, unitPhase]

/-- A power of two is recognized as one. -/
@[simp] lemma isPowerOfTwo_two_pow (m : ℕ) : isPowerOfTwo (2 ^ m) = true := by
  simp [isPowerOfTwo, Nat.log2_two_pow]

/-- The powers of two are recognized. -/
lemma isPowerOfTwo_iff {d : ℕ} : isPowerOfTwo d = true ↔ ∃ m, d = 2 ^ m := by
  constructor
  · intro h
    obtain ⟨-, hpow⟩ : d ≠ 0 ∧ 2 ^ d.log2 = d := by simpa [isPowerOfTwo] using h
    exact ⟨d.log2, hpow.symm⟩
  · rintro ⟨m, rfl⟩
    exact isPowerOfTwo_two_pow m

/-- On entries that carry phases the synthesis goes through its levels. -/
lemma synthesizeDiagonal_of_levels {m : ℕ} (d : List (Amplitude ℝ)) (hlen : d.length = 2 ^ m)
    (hd : ∀ z ∈ d, minMagnitude ≤ ‖z.toComplex‖) (lo : ℕ) {r : Except (SynthesisError ℝ) (List (ElementaryGate ℝ) × ℝ)}
    (h : (diagonalLevels cutoff m (d.map unitPhase) lo).Gives r) : (synthesizeDiagonal d lo cutoff).Gives r := by
  rw [synthesizeDiagonal, hlen, if_pos (isPowerOfTwo_two_pow m), Nat.log2_two_pow]
  exact (Synthesis.gives_lift (normalizePhases_eq_ok d hd 0)).bind h

/-- A diagonal whose entries are far enough from zero is synthesized, with an error that grows by half the cutoff for every
rotation left out. -/
lemma synthesizeDiagonal_gives {m : ℕ} (d : List (Amplitude ℝ)) (hlen : d.length = 2 ^ m)
    (hd : ∀ z ∈ d, minMagnitude ≤ ‖z.toComplex‖) (lo : ℕ) (hcutoff : 0 ≤ cutoff) :
    ∃ (gates : List (ElementaryGate ℝ)) (phase : ℝ) (e : ℕ → ℂ),
      (synthesizeDiagonal d lo cutoff).Gives (.ok (gates, phase)) ∧
      (∀ g ∈ gates, g.IsStep (· = .z) lo (lo + m)) ∧
      (∀ n, lo + m ≤ n →
        exp (phase * I) • gatesOperator n gates = diagonal fun i : Fin (2 ^ n) => e (field lo m i)) ∧
      ∀ x (hx : x < d.length), ‖e x - d[x].toComplex / ‖d[x].toComplex‖‖ ≤ (2 ^ m - 1) * cutoff / 2 := by
  have hunit : ∀ z ∈ d.map unitPhase, ‖z.toComplex‖ = 1 := by
    intro z hz
    obtain ⟨w, hw, rfl⟩ := List.mem_map.1 hz
    exact norm_unitPhase (norm_pos_iff.1 (minMagnitude_pos.trans_le (hd w hw)))
  obtain ⟨gates, phase, e, hgives, hsteps, hclose, hop⟩ :=
    diagonalLevels_gives hcutoff m (d.map unitPhase) (by rwa [List.length_map]) hunit lo
  refine ⟨gates, phase, e, synthesizeDiagonal_of_levels d hlen hd lo hgives, hsteps, hop, fun x hx => ?_⟩
  have h := hclose x (by rwa [List.length_map])
  rwa [List.getElem_map, toComplex_unitPhase] at h

/-- Numbers of modulus one are far enough from zero. -/
lemma minMagnitude_le_one : (minMagnitude : ℝ) ≤ 1 := by
  change (1e-12 : ℝ) ≤ 1
  norm_num

/-- Entries of modulus one are realized exactly if no rotation is left out. -/
lemma synthesizeDiagonal_of_unit {m : ℕ} (d : List (Amplitude ℝ)) (hlen : d.length = 2 ^ m)
    (hunit : ∀ z ∈ d, ‖z.toComplex‖ = 1) (lo : ℕ) :
    ∃ (gates : List (ElementaryGate ℝ)) (phase : ℝ), (synthesizeDiagonal d lo (0 : ℝ)).Gives (.ok (gates, phase)) ∧
      (∀ g ∈ gates, g.IsStep (· = .z) lo (lo + m)) ∧
      ∀ n, lo + m ≤ n →
        exp (phase * I) • gatesOperator n gates = diagonal fun i : Fin (2 ^ n) => entry d (field lo m i) := by
  obtain ⟨gates, phase, e, hgives, hsteps, hop, hclose⟩ := synthesizeDiagonal_gives d hlen
    (fun z hz => (hunit z hz).symm ▸ minMagnitude_le_one) lo le_rfl
  refine ⟨gates, phase, hgives, hsteps, fun n hn => ?_⟩
  rw [hop n hn]
  congr 1
  funext i
  have hi : field lo m i < d.length := hlen ▸ field_lt lo m i
  have h := hclose _ hi
  rw [mul_zero, zero_div, hunit _ (List.getElem_mem hi), Complex.ofReal_one, div_one] at h
  rw [entry, List.getD_eq_getElem _ _ hi]
  exact sub_eq_zero.1 (norm_le_zero_iff.1 h)

/-- The synthesis of a diagonal whose entries carry phases succeeds. Its gates are rotations about the third axis and
controlled-NOTs on the wires from `lo` on, and with the phase they multiply each basis state by the phase of the entry
that those wires read, up to half of the cutoff for each of `2^m - 1` rotations. -/
theorem synthesizeDiagonal_operator {m : ℕ} (d : List (Amplitude ℝ)) (hlen : d.length = 2 ^ m)
    (hd : ∀ z ∈ d, minMagnitude ≤ ‖z.toComplex‖) (lo : ℕ) (hcutoff : 0 ≤ cutoff) :
    ∃ (gates : List (ElementaryGate ℝ)) (phase : ℝ) (e : ℕ → ℂ),
      (synthesizeDiagonal d lo cutoff).Gives (.ok (gates, phase)) ∧
      (∀ g ∈ gates, g.IsStep (· = .z) lo (lo + m)) ∧
      (∀ n, lo + m ≤ n →
        exp (phase * I) • gatesOperator n gates = diagonal fun i : Fin (2 ^ n) => e (field lo m i)) ∧
      (∀ x (hx : x < d.length), ‖e x - d[x].toComplex / ‖d[x].toComplex‖‖ ≤ (2 ^ m - 1) * cutoff / 2) ∧
      (cutoff = 0 → ∀ x (hx : x < d.length), e x = d[x].toComplex / ‖d[x].toComplex‖) := by
  obtain ⟨gates, phase, e, hgives, hsteps, hop, hclose⟩ := synthesizeDiagonal_gives d hlen hd lo hcutoff
  refine ⟨gates, phase, e, hgives, hsteps, hop, hclose, fun hzero x hx => ?_⟩
  have h := hclose x hx
  rw [hzero, mul_zero, zero_div] at h
  exact sub_eq_zero.1 (norm_le_zero_iff.1 h)

/-- The phase gate on the third wire. -/
theorem synthesizeDiagonal_operator_phase : ∃ (gates : List (ElementaryGate ℝ)) (phase : ℝ),
    (synthesizeDiagonal [1, .i] 2 (0 : ℝ)).Gives (.ok (gates, phase)) ∧ ∀ n, 3 ≤ n →
      exp (phase * I) • gatesOperator n gates = diagonal fun i : Fin (2 ^ n) => if i.val.testBit 2 then I else 1 := by
  have hd : ∀ z ∈ ([1, .i] : List (Amplitude ℝ)), minMagnitude ≤ ‖z.toComplex‖ := by
    simpa using minMagnitude_le_one
  obtain ⟨gates, phase, e, hgives, -, hop, -, he⟩ := synthesizeDiagonal_operator (m := 1) [1, .i] rfl hd 2 le_rfl
  refine ⟨gates, phase, hgives, fun n hn => ?_⟩
  rw [hop n hn]
  congr 1
  funext i
  have hfield : field 2 1 i = Nat.bit (i.val.testBit 2) 0 := by
    rw [field_succ, field, pow_zero, Nat.mod_one]
  rw [hfield]
  cases i.val.testBit 2
  · simpa using he rfl 0 (by simp)
  · simpa using he rfl 1 (by simp)

end Synthesis

end CircuitSynthesis
