import Mathlib
import CircuitSynthesis.StatePreparation
import CircuitSynthesis.Proofs.Diagonal
import CircuitSynthesis.Proofs.Register.State

/-!
# The state that a synthesis prepares

A pair of amplitudes is a parent times the first column of a rotation about the second axis followed by one about the
third (`column_mul_parentAmplitude`), whatever angles its zeros take. A column moves by at most half of what either of
its angles does (`norm_spread_column_sub_le`), and a unit column keeps the error of the wires above, so that the errors of
the levels add up in `stateLevels_gives`. It starts from any basis state whose wires in question are zero. The main
statement is `synthesizeState_state`.
-/

namespace CircuitSynthesis

open Complex (I exp)
open Matrix

section Column

/-- How a rotation about the second axis splits a zero over the two values of its wire. -/
noncomputable def split (b : Bool) (t : ℝ) : ℝ := if b then Real.sin (t / 2) else Real.cos (t / 2)

/-- The first column of a rotation by `β` about the second axis followed by one by `γ` about the third. -/
noncomputable def column (β γ : ℝ) (b : Bool) : ℂ := turn b γ * split b β

/-- The first column of a rotation about the second axis followed by one about the third. -/
lemma rotation_z_mul_rotation_y_apply (β γ : ℝ) (b : Bool) :
    (Axis.z.rotation γ * Axis.y.rotation β) b false = column β γ b := by
  rw [rotation_z, diagonal_mul, rotation_y_apply]
  cases b <;> simp [column, turn, split]

/-- The two factors of a split make up a unit vector. -/
lemma split_sq_add_split_sq (t : ℝ) : split false t ^ 2 + split true t ^ 2 = 1 := Real.cos_sq_add_sin_sq (t / 2)

/-- A phase does not change how a column splits. -/
lemma norm_column_sq (β γ : ℝ) (b : Bool) : ‖column β γ b‖ ^ 2 = split b β ^ 2 := by
  rw [column, norm_mul, norm_turn, one_mul, Complex.norm_real, Real.norm_eq_abs, sq_abs]

/-- Two splits are no farther apart than half of their angles. -/
lemma split_sub_sq_le (s t : ℝ) : (split false s - split false t) ^ 2 + (split true s - split true t) ^ 2 ≤ (|s - t| / 2) ^ 2 := by
  have hnorm : ‖exp ((s / 2 : ℝ) * I) - exp ((t / 2 : ℝ) * I)‖ ^ 2 =
      (split false s - split false t) ^ 2 + (split true s - split true t) ^ 2 := by
    rw [Complex.sq_norm, Complex.normSq_apply, Complex.sub_re, Complex.sub_im]
    simp only [Complex.exp_ofReal_mul_I_re, Complex.exp_ofReal_mul_I_im]
    simp only [split, ↓reduceIte, reduceCtorEq]
    ring
  have hhalf : |s / 2 - t / 2| = |s - t| / 2 := by rw [← sub_div, abs_div, abs_two]
  rw [← hnorm, ← hhalf]
  exact pow_le_pow_left₀ (norm_nonneg _) (Complex.norm_exp_mul_I_sub_exp_mul_I_le _ _) 2

/-- Either entry of a pair is its parent times the column of the angles of the pair. -/
lemma column_mul_parentAmplitude (p : Amplitude ℝ × Amplitude ℝ) (b : Bool) :
    column (splitAngle p) (phaseAngle p) b * (parentAmplitude p).toComplex = (if b then p.2 else p.1).toComplex := by
  let w : ℂ := ⟨p.1.norm, p.2.norm⟩
  have hlength : (Scalar.hypot p.1.norm p.2.norm : ℝ) = ‖w‖ := by
    rw [Complex.norm_def, Complex.normSq_apply]
    rfl
  have hangle : splitAngle p / 2 = w.arg := by
    rw [splitAngle, Scalar.two_real, mul_div_cancel_left₀ _ two_ne_zero]
    rfl
  have hmean : (parentAmplitude p).toComplex = ‖w‖ * exp (((p.1.arg + p.2.arg) / 2 : ℝ) * I) := by
    rw [parentAmplitude, Amplitude.toComplex_polar, hlength, Scalar.two_real]
  rw [hmean, column, split, hangle, turn, phaseAngle]
  cases b with
  | false =>
    have hphase : -(p.2.arg - p.1.arg) / 2 + (p.1.arg + p.2.arg) / 2 = p.1.arg := by ring
    calc exp ((-(p.2.arg - p.1.arg) / 2 : ℝ) * I) * (Real.cos w.arg : ℝ) * (‖w‖ * exp (((p.1.arg + p.2.arg) / 2 : ℝ) * I))
        = (‖w‖ * Real.cos w.arg : ℝ) * exp ((-(p.2.arg - p.1.arg) / 2 + (p.1.arg + p.2.arg) / 2 : ℝ) * I) := by
          rw [Complex.exp_ofReal_add_mul_I]
          push_cast
          ring
      _ = p.1.toComplex := by
          rw [hphase, Complex.norm_mul_cos_arg]
          exact Amplitude.norm_smul_phase_arg p.1
  | true =>
    have hphase : (p.2.arg - p.1.arg) / 2 + (p.1.arg + p.2.arg) / 2 = p.2.arg := by ring
    calc exp (((p.2.arg - p.1.arg) / 2 : ℝ) * I) * (Real.sin w.arg : ℝ) * (‖w‖ * exp (((p.1.arg + p.2.arg) / 2 : ℝ) * I))
        = (‖w‖ * Real.sin w.arg : ℝ) * exp (((p.2.arg - p.1.arg) / 2 + (p.1.arg + p.2.arg) / 2 : ℝ) * I) := by
          rw [Complex.exp_ofReal_add_mul_I]
          push_cast
          ring
      _ = p.2.toComplex := by
          rw [hphase, Complex.norm_mul_sin_arg]
          exact Amplitude.norm_smul_phase_arg p.2

end Column

section Error

variable {m : ℕ} {β β' γ γ' : ℕ → ℝ} {f : ℕ → ℂ} {δ : ℝ}

/-- The columns of angles for each value of the wires above. -/
noncomputable def columns (β γ : ℕ → ℝ) (y : ℕ) (b : Bool) : ℂ := column (β y) (γ y) b

/-- Spreading by columns of rotations keeps the length. -/
lemma norm_spread_columns (m : ℕ) (β γ : ℕ → ℝ) (f : ℕ → ℂ) :
    ‖amplitudes (m + 1) (spread (columns β γ) f)‖ = ‖amplitudes m f‖ := by
  refine norm_spread fun y _ => ?_
  rw [columns, columns, norm_column_sq, norm_column_sq, split_sq_add_split_sq]

/-- Angles that move by at most `δ` each move the amplitudes by at most `δ` times their length. -/
lemma norm_spread_column_sub_le (hδ : 0 ≤ δ) (hβ : ∀ y < 2 ^ m, |β' y - β y| ≤ δ) (hγ : ∀ y < 2 ^ m, |γ' y - γ y| ≤ δ) :
    ‖amplitudes (m + 1) (spread (columns β' γ') f) - amplitudes (m + 1) (spread (columns β γ) f)‖ ≤
      δ * ‖amplitudes m f‖ := by
  let splits (y : ℕ) (b : Bool) : ℂ := turn b (γ' y) * (split b (β' y) - split b (β y) : ℝ)
  let turns (y : ℕ) (b : Bool) : ℂ := (turn b (γ' y) - turn b (γ y)) * split b (β y)
  have hsum : amplitudes (m + 1) (spread (columns β' γ') f) - amplitudes (m + 1) (spread (columns β γ) f) =
      amplitudes (m + 1) (spread splits f) + amplitudes (m + 1) (spread turns f) := by
    ext x
    change spread (columns β' γ') f x - spread (columns β γ) f x = spread splits f x + spread turns f x
    simp only [spread, columns, column, splits, turns]
    push_cast
    ring
  have hsplits (y : ℕ) (hy : y < 2 ^ m) : ‖splits y false‖ ^ 2 + ‖splits y true‖ ^ 2 ≤ (δ / 2) ^ 2 := by
    simp only [splits, norm_mul, norm_turn, one_mul, Complex.norm_real, Real.norm_eq_abs, sq_abs]
    refine (split_sub_sq_le _ _).trans (pow_le_pow_left₀ (by positivity) ?_ 2)
    exact div_le_div_of_nonneg_right (hβ y hy) zero_le_two
  have hturns (y : ℕ) (hy : y < 2 ^ m) : ‖turns y false‖ ^ 2 + ‖turns y true‖ ^ 2 ≤ (δ / 2) ^ 2 := by
    have hturn (b : Bool) : ‖turn b (γ' y) - turn b (γ y)‖ ^ 2 ≤ (δ / 2) ^ 2 := by
      refine pow_le_pow_left₀ (norm_nonneg _) ((norm_turn_sub_le _ _ _).trans ?_) 2
      exact div_le_div_of_nonneg_right (hγ y hy) zero_le_two
    simp only [turns, norm_mul, Complex.norm_real, Real.norm_eq_abs, mul_pow, sq_abs]
    calc ‖turn false (γ' y) - turn false (γ y)‖ ^ 2 * split false (β y) ^ 2 +
          ‖turn true (γ' y) - turn true (γ y)‖ ^ 2 * split true (β y) ^ 2
        ≤ (δ / 2) ^ 2 * split false (β y) ^ 2 + (δ / 2) ^ 2 * split true (β y) ^ 2 :=
          add_le_add (mul_le_mul_of_nonneg_right (hturn false) (sq_nonneg _))
            (mul_le_mul_of_nonneg_right (hturn true) (sq_nonneg _))
      _ = (δ / 2) ^ 2 := by rw [← mul_add, split_sq_add_split_sq, mul_one]
  rw [hsum]
  calc ‖amplitudes (m + 1) (spread splits f) + amplitudes (m + 1) (spread turns f)‖
      ≤ δ / 2 * ‖amplitudes m f‖ + δ / 2 * ‖amplitudes m f‖ :=
        (norm_add_le _ _).trans
          (add_le_add (norm_spread_le (by positivity) hsplits) (norm_spread_le (by positivity) hturns))
    _ = δ * ‖amplitudes m f‖ := by ring

/-- A level adds its own error to that of the wires above. -/
lemma norm_smul_spread_columns_sub_le (hδ : 0 ≤ δ) (hβ : ∀ y < 2 ^ m, |β' y - β y| ≤ δ)
    (hγ : ∀ y < 2 ^ m, |γ' y - γ y| ≤ δ) (c : ℂ) (e : ℕ → ℂ) :
    ‖c • amplitudes (m + 1) (spread (columns β' γ') e) - amplitudes (m + 1) (spread (columns β γ) f)‖ ≤
      ‖c • amplitudes m e - amplitudes m f‖ + δ * ‖amplitudes m f‖ := by
  have habove : c • amplitudes (m + 1) (spread (columns β' γ') e) - amplitudes (m + 1) (spread (columns β' γ') f) =
      amplitudes (m + 1) (spread (columns β' γ') fun y => c * e y - f y) := by
    ext x
    change c * spread (columns β' γ') e x - spread (columns β' γ') f x = _ * (c * _ - _)
    simp only [spread]
    ring
  calc ‖c • amplitudes (m + 1) (spread (columns β' γ') e) - amplitudes (m + 1) (spread (columns β γ) f)‖
      ≤ ‖c • amplitudes (m + 1) (spread (columns β' γ') e) - amplitudes (m + 1) (spread (columns β' γ') f)‖ +
          ‖amplitudes (m + 1) (spread (columns β' γ') f) - amplitudes (m + 1) (spread (columns β γ) f)‖ :=
        norm_sub_le_norm_sub_add_norm_sub _ _ _
    _ ≤ ‖c • amplitudes m e - amplitudes m f‖ + δ * ‖amplitudes m f‖ := by
        refine add_le_add (le_of_eq ?_) (norm_spread_column_sub_le hδ hβ hγ)
        rw [habove, norm_spread_columns]
        rfl

end Error

section Levels

variable {cutoff : ℝ}

/-- The two entries of a list that differ in the lowest bit of their index. -/
noncomputable def pairAt (v : List (Amplitude ℝ)) (y : ℕ) : Amplitude ℝ × Amplitude ℝ := (v.getD (2 * y) 0, v.getD (2 * y + 1) 0)

/-- A map over the pairs of a list, at a place. -/
lemma getElem_map_pairs {α : Type} (f : Amplitude ℝ × Amplitude ℝ → α) (v : List (Amplitude ℝ)) {y : ℕ}
    (hy : y < ((pairs v).map f).length) : ((pairs v).map f)[y] = f (pairAt v y) := by
  have hy' : y < v.length / 2 := by simpa using hy
  rw [List.getElem_map, getElem_pairs, pairAt, List.getD_eq_getElem _ _ (by omega), List.getD_eq_getElem _ _ (by omega)]
  rfl

/-- The entries of a list are those of the parents of its pairs, spread by the columns of their angles. -/
lemma amplitudes_entry {m : ℕ} (v : List (Amplitude ℝ)) (hlen : v.length = 2 ^ (m + 1)) :
    amplitudes (m + 1) (entry v) =
      amplitudes (m + 1) (spread (columns (fun y => splitAngle (pairAt v y)) fun y => phaseAngle (pairAt v y))
        (entry ((pairs v).map parentAmplitude))) := by
  refine amplitudes_congr fun x hx => ?_
  cases x using Nat.bitCasesOn with
  | bit b y =>
    have hy : y < ((pairs v).map parentAmplitude).length := by
      rw [length_map_pairs _ hlen]
      cases b <;> simp [Nat.bit, Nat.pow_succ] at hx <;> omega
    simp only [spread, Nat.bit_div_two, Nat.testBit_bit_zero, columns]
    rw [entry, entry, List.getD_eq_getElem _ _ hy, getElem_map_pairs, column_mul_parentAmplitude]
    cases b <;> rfl

/-- The parents of the pairs are as long as the list. -/
lemma norm_amplitudes_parents {m : ℕ} (v : List (Amplitude ℝ)) (hlen : v.length = 2 ^ (m + 1)) :
    ‖amplitudes (m + 1) (entry v)‖ = ‖amplitudes m (entry ((pairs v).map parentAmplitude))‖ := by
  rw [amplitudes_entry v hlen, norm_spread_columns]

/-- Where the angles of a level are within `δ` of those of the pairs, the level adds `δ` times the length to the error of
the wires above. -/
lemma norm_level_sub_le {m : ℕ} (v : List (Amplitude ℝ)) (hlen : v.length = 2 ^ (m + 1)) {β γ : ℕ → ℝ} {δ : ℝ} (hδ : 0 ≤ δ)
    (hβ : ∀ y (hy : y < ((pairs v).map splitAngle).length), |β y - ((pairs v).map splitAngle)[y]| ≤ δ)
    (hγ : ∀ y (hy : y < ((pairs v).map phaseAngle).length), |γ y - ((pairs v).map phaseAngle)[y]| ≤ δ) (e : ℕ → ℂ) :
    ‖(‖amplitudes (m + 1) (entry v)‖ : ℂ) • amplitudes (m + 1) (spread (columns β γ) e) - amplitudes (m + 1) (entry v)‖ ≤
      ‖(‖amplitudes (m + 1) (entry v)‖ : ℂ) • amplitudes m e - amplitudes m (entry ((pairs v).map parentAmplitude))‖ +
        δ * ‖amplitudes (m + 1) (entry v)‖ := by
  have hclose {α : ℕ → ℝ} (f : Amplitude ℝ × Amplitude ℝ → ℝ)
      (h : ∀ y (hy : y < ((pairs v).map f).length), |α y - ((pairs v).map f)[y]| ≤ δ) :
      ∀ y < 2 ^ m, |α y - f (pairAt v y)| ≤ δ := by
    intro y hy
    have hy' := h y (by rwa [length_map_pairs _ hlen])
    rwa [getElem_map_pairs] at hy'
  have h := norm_smul_spread_columns_sub_le (f := entry ((pairs v).map parentAmplitude)) hδ (hclose splitAngle hβ)
    (hclose phaseAngle hγ) ‖amplitudes (m + 1) (entry v)‖ e
  rwa [← amplitudes_entry v hlen, ← norm_amplitudes_parents v hlen] at h

/-- The two ladders of a level spread a state of the wires above by the columns of their angles. -/
lemma gatesOperator_ladders_mulVec_placed {n target m : ℕ} {ys zs : List (ElementaryGate ℝ)} {β γ : ℕ → ℝ} (htarget : target < n)
    (hys : gatesOperator n ys = wireOperator n target fun i => Axis.y.rotation (β (field (target + 1) m i)))
    (hzs : gatesOperator n zs = wireOperator n target fun i => Axis.z.rotation (γ (field (target + 1) m i)))
    {s : ℕ} (hs : s.testBit target = false) (e : ℕ → ℂ) :
    gatesOperator n (ys ++ zs) *ᵥ placed n (target + 1) m s e = placed n target (m + 1) s (spread (columns β γ) e) := by
  have hcolumn : gatesOperator n zs * gatesOperator n ys = wireOperator n target fun i =>
      Axis.z.rotation (γ (field (target + 1) m i)) * Axis.y.rotation (β (field (target + 1) m i)) := by
    rw [hzs, hys]
    refine wireOperator_mul htarget _ _ fun b i => ?_
    simp only [field_setWire (Or.inl (Nat.lt_succ_self target))]
  rw [gatesOperator_append, hcolumn,
    wireOperator_mulVec_placed htarget hs (fun y => Axis.z.rotation (γ y) * Axis.y.rotation (β y))]
  congr 2
  funext y b
  exact rotation_z_mul_rotation_y_apply _ _ _

/-- An amplitude of no wire is its length times a phase. -/
lemma norm_smul_amplitudes_arg (z : Amplitude ℝ) :
    (‖amplitudes 0 (entry [z])‖ : ℂ) • amplitudes 0 (fun _ => exp (z.arg * I)) = amplitudes 0 (entry [z]) := by
  have hnorm : ‖amplitudes 0 (entry [z])‖ = ‖z.toComplex‖ := by
    rw [← sq_eq_sq₀ (norm_nonneg _) (norm_nonneg _), norm_amplitudes_sq, pow_zero, Finset.sum_range_one]
    rfl
  ext x
  have hx : x.val = 0 := Nat.lt_one_iff.1 x.isLt
  change (‖amplitudes 0 (entry [z])‖ : ℂ) * exp (z.arg * I) = entry [z] x
  rw [hnorm, hx]
  exact Amplitude.norm_smul_phase_arg z

/-- From any basis state in which the wires from `target` on are zero the levels prepare the amplitudes on these wires,
up to the cutoff for each of `2^wires - 1` values of wires above a target. -/
lemma stateLevels_gives (hcutoff : 0 ≤ cutoff) (wires : ℕ) (v : List (Amplitude ℝ)) (hlen : v.length = 2 ^ wires)
    (target : ℕ) : ∃ (gates : List (ElementaryGate ℝ)) (phase : ℝ) (e : ℕ → ℂ),
      (stateLevels cutoff wires v target).Gives (.ok (gates, phase)) ∧
      (∀ g ∈ gates, g.IsStep (fun _ => True) target (target + wires)) ∧
      ‖(‖amplitudes wires (entry v)‖ : ℂ) • amplitudes wires e - amplitudes wires (entry v)‖ ≤
        (2 ^ wires - 1) * cutoff * ‖amplitudes wires (entry v)‖ ∧
      ∀ n, target + wires ≤ n → ∀ s, (∀ q, target ≤ q → q < target + wires → s.testBit q = false) →
        exp (phase * I) • (gatesOperator n gates *ᵥ basisState n s) = placed n target wires s e := by
  induction wires generalizing v target with
  | zero =>
    obtain ⟨z, rfl⟩ : ∃ z, v = [z] := List.length_eq_one_iff.1 hlen
    refine ⟨[], z.arg, fun _ => exp (z.arg * I), Synthesis.gives_pure _, by simp, ?_, fun n _ s _ => ?_⟩
    · rw [norm_smul_amplitudes_arg, sub_self, norm_zero, pow_zero, sub_self, zero_mul, zero_mul]
    · rw [gatesOperator_nil, one_mulVec, placed_zero]
  | succ wires ih =>
    obtain ⟨above, phase, e, habove, hsteps, he, hop⟩ :=
      ih ((pairs v).map parentAmplitude) (length_map_pairs _ hlen) (target + 1)
    obtain ⟨ys, β, hys, hβ, hysteps, hyop⟩ := multiplexedRotation_build .y target
      ((pairs v).map splitAngle) (length_map_pairs _ hlen) hcutoff
    obtain ⟨zs, γ, hzs, hγ, hzsteps, hzop⟩ := multiplexedRotation_build .z target
      ((pairs v).map phaseAngle) (length_map_pairs _ hlen) hcutoff
    refine ⟨above ++ ys ++ zs, phase, spread (columns β γ) e, ?_, ?_, ?_, fun n hn s hs => ?_⟩
    · exact habove.bind ((Synthesis.gives_table _).bind
        ((Synthesis.gives_lift hys).bind ((Synthesis.gives_lift hzs).bind (Synthesis.gives_pure _))))
    · intro g hg
      rcases List.mem_append.1 hg with hg | hg
      · rcases List.mem_append.1 hg with hg | hg
        · exact (hsteps g hg).mono (fun _ h => h) (by omega) (by omega)
        · exact (hysteps g hg).mono (fun _ _ => trivial) le_rfl (by omega)
      · exact (hzsteps g hg).mono (fun _ _ => trivial) le_rfl (by omega)
    · rw [← norm_amplitudes_parents v hlen] at he
      calc _ ≤ ‖(‖amplitudes (wires + 1) (entry v)‖ : ℂ) • amplitudes wires e -
              amplitudes wires (entry ((pairs v).map parentAmplitude))‖ +
            2 ^ wires * cutoff * ‖amplitudes (wires + 1) (entry v)‖ :=
            norm_level_sub_le v hlen (by positivity) hβ hγ e
        _ ≤ (2 ^ wires - 1) * cutoff * ‖amplitudes (wires + 1) (entry v)‖ +
            2 ^ wires * cutoff * ‖amplitudes (wires + 1) (entry v)‖ := add_le_add_left he _
        _ = (2 ^ (wires + 1) - 1) * cutoff * ‖amplitudes (wires + 1) (entry v)‖ := by ring
    · -- the wires above are prepared first, while the target still reads zero
      have hplaced := hop n (by omega) s fun q h₁ h₂ => hs q (by omega) (by omega)
      rw [List.append_assoc, gatesOperator_append, ← mulVec_mulVec, ← mulVec_smul, hplaced]
      exact gatesOperator_ladders_mulVec_placed (by omega) (hyop n (by omega)) (hzop n (by omega))
        (hs target le_rfl (by omega)) e

/-- Amplitudes over the real numbers are finite, so the synthesis goes through its levels. -/
lemma synthesizeState_of_levels {m : ℕ} (v : List (Amplitude ℝ)) (hlen : v.length = 2 ^ m) (lo : ℕ)
    {r : Except (SynthesisError ℝ) (List (ElementaryGate ℝ) × ℝ)} (h : (stateLevels cutoff m v lo).Gives r) :
    (synthesizeState v lo cutoff).Gives r := by
  have hfinite : (v.zipIdx.find? fun (z, _) => !z.isFinite) = none := by simp
  rw [synthesizeState, hlen, if_pos (isPowerOfTwo_two_pow m), hfinite, Nat.log2_two_pow]
  exact h

/-- A state of length one is prepared exactly if no rotation is left out. -/
lemma synthesizeState_of_unit {m : ℕ} (v : List (Amplitude ℝ)) (hlen : v.length = 2 ^ m)
    (hunit : ‖amplitudes m (entry v)‖ = 1) (lo : ℕ) :
    ∃ (gates : List (ElementaryGate ℝ)) (phase : ℝ), (synthesizeState v lo (0 : ℝ)).Gives (.ok (gates, phase)) ∧
      (∀ g ∈ gates, g.IsStep (fun _ => True) lo (lo + m)) ∧
      ∀ n, lo + m ≤ n → ∀ s, (∀ q, lo ≤ q → q < lo + m → s.testBit q = false) →
        exp (phase * I) • (gatesOperator n gates *ᵥ basisState n s) = placed n lo m s (entry v) := by
  obtain ⟨gates, phase, e, hgives, hsteps, he, hop⟩ := stateLevels_gives (le_refl (0 : ℝ)) m v hlen lo
  refine ⟨gates, phase, synthesizeState_of_levels v hlen lo hgives, hsteps, fun n hn s hs => ?_⟩
  rw [hop n hn s hs]
  refine placed_congr fun x hx => ?_
  rw [hunit, mul_zero, zero_mul, Complex.ofReal_one, one_smul] at he
  exact congrFun (congrArg WithLp.ofLp (sub_eq_zero.1 (norm_le_zero_iff.1 he))) ⟨x, hx⟩

/-- A state that is not zero has some length. -/
lemma norm_entry_pos {m : ℕ} {v : List (Amplitude ℝ)} (hlen : v.length = 2 ^ m) (hv : ∃ z ∈ v, z ≠ 0) :
    0 < ‖amplitudes m (entry v)‖ := by
  obtain ⟨z, hz, hne⟩ := hv
  obtain ⟨x, hx, rfl⟩ := List.getElem_of_mem hz
  refine norm_pos_iff.2 fun hzero => hne (Amplitude.toComplex_injective ?_)
  have h : entry v x = 0 := congrFun (congrArg WithLp.ofLp hzero) ⟨x, hlen ▸ hx⟩
  rwa [entry, List.getD_eq_getElem _ _ hx] at h

/-- The synthesis of a nonzero state succeeds. Its gates touch the wires from `lo` on alone, and with the phase they take
the zero state to one in which the other wires are still zero and these hold the normalized amplitudes, up to the cutoff
for each of `2^m - 1` values of wires above a target. -/
theorem synthesizeState_state {m : ℕ} (v : List (Amplitude ℝ)) (hlen : v.length = 2 ^ m) (hv : ∃ z ∈ v, z ≠ 0) (lo : ℕ)
    (hcutoff : 0 ≤ cutoff) :
    ∃ (gates : List (ElementaryGate ℝ)) (phase : ℝ) (e : ℕ → ℂ),
      (synthesizeState v lo cutoff).Gives (.ok (gates, phase)) ∧
      (∀ g ∈ gates, g.IsStep (fun _ => True) lo (lo + m)) ∧
      (∀ n, lo + m ≤ n → exp (phase * I) • (gatesOperator n gates *ᵥ basisState n 0) = placed n lo m 0 e) ∧
      ‖amplitudes m e - (‖amplitudes m (entry v)‖ : ℂ)⁻¹ • amplitudes m (entry v)‖ ≤ (2 ^ m - 1) * cutoff ∧
      (cutoff = 0 → amplitudes m e = (‖amplitudes m (entry v)‖ : ℂ)⁻¹ • amplitudes m (entry v)) := by
  obtain ⟨gates, phase, e, hgives, hsteps, he, hop⟩ := stateLevels_gives hcutoff m v hlen lo
  have hpos := norm_entry_pos hlen hv
  have hne : (‖amplitudes m (entry v)‖ : ℂ) ≠ 0 := by exact_mod_cast hpos.ne'
  have hclose : ‖amplitudes m e - (‖amplitudes m (entry v)‖ : ℂ)⁻¹ • amplitudes m (entry v)‖ ≤ (2 ^ m - 1) * cutoff := by
    have hscale : amplitudes m e - (‖amplitudes m (entry v)‖ : ℂ)⁻¹ • amplitudes m (entry v) =
        (‖amplitudes m (entry v)‖ : ℂ)⁻¹ • ((‖amplitudes m (entry v)‖ : ℂ) • amplitudes m e - amplitudes m (entry v)) := by
      rw [smul_sub, inv_smul_smul₀ hne]
    rw [hscale, norm_smul, norm_inv, Complex.norm_real, norm_norm, inv_mul_le_iff₀ hpos, mul_comm]
    exact he
  refine ⟨gates, phase, e, synthesizeState_of_levels v hlen lo hgives, hsteps, fun n hn => ?_, hclose, fun hzero => ?_⟩
  · exact hop n hn 0 fun q _ _ => Nat.zero_testBit q
  · rw [hzero, mul_zero] at hclose
    exact sub_eq_zero.1 (norm_le_zero_iff.1 hclose)

/-- A state of the second wire with a phase between its amplitudes. -/
theorem synthesizeState_state_pair : ∃ (gates : List (ElementaryGate ℝ)) (phase : ℝ),
    (synthesizeState [.ofReal 3, .ofComplex (4 * I)] 1 (0 : ℝ)).Gives (.ok (gates, phase)) ∧ ∀ n, 2 ≤ n →
      exp (phase * I) • (gatesOperator n gates *ᵥ basisState n 0) =
        placed n 1 1 0 fun x => if x = 0 then 3 / 5 else 4 / 5 * I := by
  have hv : ∃ z ∈ ([.ofReal 3, .ofComplex (4 * I)] : List (Amplitude ℝ)), z ≠ 0 := by
    refine ⟨.ofReal 3, by simp, fun h => ?_⟩
    have hzero := congrArg Amplitude.toComplex h
    norm_num at hzero
  have hnorm : ‖amplitudes 1 (entry [.ofReal 3, .ofComplex (4 * I)])‖ = 5 := by
    rw [← sq_eq_sq₀ (norm_nonneg _) (by norm_num), norm_amplitudes_sq]
    norm_num [Finset.sum_range_succ, entry]
  obtain ⟨gates, phase, e, hgives, -, hop, -, he⟩ := synthesizeState_state (m := 1) _ rfl hv 1 le_rfl
  refine ⟨gates, phase, hgives, fun n hn => ?_⟩
  rw [hop n hn]
  refine placed_congr fun x hx => ?_
  have hx' : e x = (‖amplitudes 1 (entry [.ofReal 3, .ofComplex (4 * I)])‖ : ℂ)⁻¹ *
      entry [.ofReal 3, .ofComplex (4 * I)] x := congrFun (congrArg WithLp.ofLp (he rfl)) ⟨x, hx⟩
  rw [hx', hnorm]
  obtain rfl | rfl : x = 0 ∨ x = 1 := by omega
  · norm_num [entry]
  · norm_num [entry]
    ring

end Levels

end CircuitSynthesis
