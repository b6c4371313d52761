import Mathlib
import CircuitSynthesis.Proofs.Peeling
import CircuitSynthesis.Proofs.Statevector.Alignment

/-!
# Operators that are nearly diagonal

An operator whose entries off the diagonal are below the tolerance is compiled as the diagonal of its phases. What this
discards of a row is its entries off the diagonal, and what it adds is the modulus that the diagonal entry lacks. As the
row has length one, the square of the second is at most that of the first (`normSq_phase_sub_le`), which bounds the
distance of the whole matrices for every tolerance (`norm_phaseDiagonal_sub_le`). An entry too small to carry a phase is
an overflow, and it is the only way to fail.
-/

namespace CircuitSynthesis

open Matrix
open scoped Matrix.Norms.Frobenius

section Distance

variable {s : ℕ} {U : Matrix (Fin s) (Fin s) ℂ}

/-- The diagonal of the phases on the diagonal of a matrix. -/
noncomputable def phaseDiagonal (U : Matrix (Fin s) (Fin s) ℂ) : Matrix (Fin s) (Fin s) ℂ :=
  diagonal fun x => U x x / ‖U x x‖

/-- Bringing a number in the unit disc to the circle moves it by no more than what its square lacks. -/
lemma normSq_phase_sub_le {z : ℂ} (hz : z ≠ 0) (hle : ‖z‖ ≤ 1) : Complex.normSq (z / ‖z‖ - z) ≤ 1 - Complex.normSq z := by
  have hnorm : (‖z‖ : ℂ) ≠ 0 := Complex.ofReal_ne_zero.2 (norm_ne_zero_iff.2 hz)
  have hfactor : z / ‖z‖ - z = z / ‖z‖ * (1 - ‖z‖ : ℝ) := by
    push_cast
    field_simp
  have hphase : Complex.normSq (z / ‖z‖) = 1 := by
    rw [Complex.normSq_div, Complex.normSq_ofReal, Complex.normSq_eq_norm_sq, sq,
      div_self (mul_self_ne_zero.2 (norm_ne_zero_iff.2 hz))]
  rw [hfactor, map_mul, hphase, Complex.normSq_ofReal, one_mul, Complex.normSq_eq_norm_sq]
  calc (1 - ‖z‖) * (1 - ‖z‖) ≤ (1 - ‖z‖) * (1 + ‖z‖) :=
        mul_le_mul_of_nonneg_left (by linarith [norm_nonneg z]) (sub_nonneg.2 hle)
    _ = 1 - ‖z‖ ^ 2 := by ring

variable {tolerance : ℝ} (hU : U ∈ unitaryGroup (Fin s) ℂ)

include hU

/-- What a row holds off the diagonal is what the entry on the diagonal lacks. -/
lemma sum_normSq_off_diagonal (x : Fin s) :
    ∑ y ∈ Finset.univ.erase x, Complex.normSq (U x y) = 1 - Complex.normSq (U x x) := by
  rw [← Householder.sum_normSq_row hU x, ← Finset.add_sum_erase _ _ (Finset.mem_univ x), add_sub_cancel_left]

/-- A row of the difference is no longer than twice what the row holds off the diagonal. -/
lemma sum_normSq_phaseDiagonal_sub_le (x : Fin s) (hx : U x x ≠ 0) :
    ∑ y, Complex.normSq ((phaseDiagonal U - U) x y) ≤ 2 * ∑ y ∈ Finset.univ.erase x, Complex.normSq (U x y) := by
  have hsum := sum_normSq_off_diagonal hU x
  have hle : ‖U x x‖ ≤ 1 := by
    have hnonneg : 0 ≤ ∑ y ∈ Finset.univ.erase x, Complex.normSq (U x y) := Finset.sum_nonneg fun y _ => Complex.normSq_nonneg _
    rw [← sq_le_one_iff₀ (norm_nonneg _), ← Complex.normSq_eq_norm_sq]
    linarith
  have hoff : ∑ y ∈ Finset.univ.erase x, Complex.normSq ((phaseDiagonal U - U) x y) =
      ∑ y ∈ Finset.univ.erase x, Complex.normSq (U x y) := by
    apply Finset.sum_congr rfl
    intro y hy
    rw [Matrix.sub_apply, phaseDiagonal, diagonal_apply_ne' _ (Finset.ne_of_mem_erase hy), zero_sub, Complex.normSq_neg]
  -- the diagonal moves by no more than what the rest of the row holds, and the rest is discarded
  have hdiagonal := normSq_phase_sub_le hx hle
  rw [← hsum] at hdiagonal
  rw [← Finset.add_sum_erase _ _ (Finset.mem_univ x), hoff, Matrix.sub_apply, phaseDiagonal, diagonal_apply_eq, two_mul]
  exact add_le_add_left hdiagonal _

/-- A unitary matrix with small entries off the diagonal is near the diagonal of its phases. -/
lemma norm_phaseDiagonal_sub_le (hne : ∀ x, U x x ≠ 0) (hoff : ∀ x y, x ≠ y → ‖U x y‖ ≤ tolerance)
    (htolerance : 0 ≤ tolerance) : ‖phaseDiagonal U - U‖ ≤ √(2 * s * (s - 1)) * tolerance := by
  have hrow (x : Fin s) : ∑ y, Complex.normSq ((phaseDiagonal U - U) x y) ≤ 2 * ((s - 1) * tolerance ^ 2) := by
    apply (sum_normSq_phaseDiagonal_sub_le hU x (hne x)).trans
    apply mul_le_mul_of_nonneg_left _ zero_le_two
    calc ∑ y ∈ Finset.univ.erase x, Complex.normSq (U x y) ≤ ∑ y ∈ Finset.univ.erase x, tolerance ^ 2 := by
          apply Finset.sum_le_sum
          intro y hy
          rw [Complex.normSq_eq_norm_sq]
          exact pow_le_pow_left₀ (norm_nonneg _) (hoff x y (Finset.ne_of_mem_erase hy).symm) 2
      _ = (s - 1) * tolerance ^ 2 := by
          rw [Finset.sum_const, Finset.card_erase_of_mem (Finset.mem_univ x), Finset.card_univ, Fintype.card_fin, nsmul_eq_mul,
            Nat.cast_pred x.pos]
  have hsq : ‖phaseDiagonal U - U‖ ^ 2 ≤ 2 * s * (s - 1) * tolerance ^ 2 := by
    rw [frobenius_norm_sq]
    calc ∑ x, ∑ y, Complex.normSq ((phaseDiagonal U - U) x y) ≤ ∑ _x : Fin s, 2 * ((s - 1) * tolerance ^ 2) :=
          Finset.sum_le_sum fun x _ => hrow x
      _ = 2 * s * (s - 1) * tolerance ^ 2 := by
          rw [Finset.sum_const, Finset.card_univ, Fintype.card_fin, nsmul_eq_mul]
          ring
  calc ‖phaseDiagonal U - U‖ ≤ √(2 * s * (s - 1) * tolerance ^ 2) := Real.le_sqrt_of_sq_le hsq
    _ = √(2 * s * (s - 1)) * tolerance := by rw [Real.sqrt_mul' _ (sq_nonneg _), Real.sqrt_sq htolerance]

end Distance

section Overflow

/-- The first entry that is too small to carry a phase is an overflow. -/
lemma normalizePhases_overflows (d : List (Amplitude ℝ)) (index : ℕ) (hsmall : ∃ z ∈ d, ‖z.toComplex‖ < minMagnitude) :
    ∃ x, ∃ hx : x < d.length, ‖d[x].toComplex‖ < minMagnitude ∧
      normalizePhases d index = .error (.overflow .diagonal (index + x) ‖d[x].toComplex‖) := by
  induction d generalizing index with
  | nil =>
    obtain ⟨z, hz, -⟩ := hsmall
    cases hz
  | cons z d ih =>
    rw [normalizePhases]
    dsimp only
    by_cases hz : ‖z.toComplex‖ < minMagnitude
    case pos =>
      refine ⟨0, Nat.succ_pos _, hz, ?_⟩
      have hcheck : (!Scalar.isFinite z.norm || decide (z.norm < minMagnitude)) = true := decide_eq_true hz
      rw [hcheck, if_pos rfl]
      rfl
    case neg =>
      obtain ⟨w, hw, hsmall⟩ := hsmall
      have hrest : w ∈ d := (List.mem_cons.1 hw).resolve_left fun heq => hz (heq ▸ hsmall)
      obtain ⟨x, hx, hsmall, herror⟩ := ih (index + 1) ⟨w, hrest, hsmall⟩
      refine ⟨x + 1, Nat.succ_lt_succ hx, hsmall, ?_⟩
      have hcheck : (!Scalar.isFinite z.norm || decide (z.norm < minMagnitude)) = false := decide_eq_false hz
      rw [hcheck, if_neg Bool.false_ne_true, herror, add_assoc, add_comm 1]
      rfl

/-- A diagonal with an entry too close to zero overflows there. -/
lemma synthesizeDiagonal_overflows {m : ℕ} (d : List (Amplitude ℝ)) (hlen : d.length = 2 ^ m) (lo : ℕ) (cutoff : ℝ)
    (hsmall : ∃ z ∈ d, ‖z.toComplex‖ < minMagnitude) :
    ∃ x, ∃ hx : x < d.length, ‖d[x].toComplex‖ < minMagnitude ∧
      (synthesizeDiagonal d lo cutoff).Gives (.error (.overflow .diagonal x ‖d[x].toComplex‖)) := by
  obtain ⟨x, hx, hlt, herror⟩ := normalizePhases_overflows d 0 hsmall
  refine ⟨x, hx, hlt, ?_⟩
  rw [Nat.zero_add] at herror
  rw [synthesizeDiagonal, hlen, if_pos (isPowerOfTwo_two_pow m)]
  exact (Synthesis.gives_lift herror).bind_error

end Overflow

namespace Compiler

variable {c : Compiler ℝ} {n : ℕ} {U : Dense (Amplitude ℝ) (2 ^ n) (2 ^ n)}

/-- An operator classed as diagonal has only small entries off the diagonal. -/
lemma maxOffDiagonal_lt_of_classify (hclass : c.classify U n = .ok .diagonal) :
    U.maxOffDiagonal < c.settings.diagonalTolerance := by
  obtain ⟨-, hkind⟩ := validate_of_classify hclass
  rw [classOf] at hkind
  split_ifs at hkind with hone hsmall
  exact hsmall

/-- What is classed as diagonal is compiled by the synthesis of its diagonal. -/
lemma compile_of_diagonal (hclass : c.classify U n = .ok .diagonal)
    {r : Except (SynthesisError ℝ) (List (ElementaryGate ℝ) × ℝ)}
    (h : (synthesizeDiagonal U.diagonal 0 c.settings.rotationCutoff).Gives r) :
    (c.compile U n).Gives (r.map fun out => ⟨n, out.1, out.2, .diagonal⟩) := by
  obtain ⟨hvalidate, hkind⟩ := validate_of_classify hclass
  rw [compile]
  refine (Synthesis.gives_lift hvalidate).bind ?_
  dsimp only
  rw [hkind]
  cases r with
  | error e => exact h.bind_error
  | ok out => exact h.bind (Synthesis.gives_pure _)

/-- If all entries on the diagonal carry phases and no rotation is left out, the synthesis realizes these phases. -/
lemma synthesizeDiagonal_diagonal_gives (hlarge : ∀ z ∈ U.diagonal, minMagnitude ≤ ‖z.toComplex‖) :
    ∃ (gates : List (ElementaryGate ℝ)) (phase : ℝ), (synthesizeDiagonal U.diagonal 0 (0 : ℝ)).Gives (.ok (gates, phase)) ∧
      Complex.exp (phase * Complex.I) • gatesOperator n gates = phaseDiagonal U.toMatrix := by
  obtain ⟨gates, phase, e, hgives, -, hop, hclose⟩ := synthesizeDiagonal_gives U.diagonal U.length_diagonal hlarge 0 le_rfl
  refine ⟨gates, phase, hgives, ?_⟩
  rw [hop n (Nat.zero_add n).le, phaseDiagonal]
  congr 1
  funext x
  have hx : x.val < U.diagonal.length := x.isLt.trans_eq U.length_diagonal.symm
  have h := hclose x hx
  rw [mul_zero, zero_div, Dense.getElem_diagonal] at h
  rw [field_lowest, Nat.mod_eq_of_lt x.isLt]
  exact sub_eq_zero.1 (norm_le_zero_iff.1 h)

/-- An entry on the diagonal that is too small to carry a phase is an overflow. -/
lemma compile_diagonal_overflows (hclass : c.classify U n = .ok .diagonal)
    (hsmall : ∃ z ∈ U.diagonal, ‖z.toComplex‖ < minMagnitude) :
    ∃ x : Fin (2 ^ n), ‖U.toMatrix x x‖ < minMagnitude ∧
      (c.compile U n).Gives (.error (.overflow .diagonal x ‖U.toMatrix x x‖)) := by
  obtain ⟨x, hx, hlt, hgives⟩ := synthesizeDiagonal_overflows U.diagonal U.length_diagonal 0 c.settings.rotationCutoff hsmall
  rw [Dense.getElem_diagonal] at hlt hgives
  exact ⟨⟨x, U.length_diagonal ▸ hx⟩, hlt, compile_of_diagonal hclass hgives⟩

/-- Otherwise the diagonal of the phases is compiled. -/
lemma compile_diagonal_gives (hcutoff : c.settings.rotationCutoff = 0) (hclass : c.classify U n = .ok .diagonal)
    (hlarge : ∀ z ∈ U.diagonal, minMagnitude ≤ ‖z.toComplex‖) :
    ∃ (gates : List (ElementaryGate ℝ)) (phase : ℝ), (c.compile U n).Gives (.ok ⟨n, gates, phase, .diagonal⟩) ∧
      Program.operator ⟨n, gates, phase, .diagonal⟩ = phaseDiagonal U.toMatrix := by
  obtain ⟨gates, phase, hgives, hop⟩ := synthesizeDiagonal_diagonal_gives hlarge
  rw [← hcutoff] at hgives
  refine ⟨gates, phase, compile_of_diagonal hclass hgives, ?_⟩
  rw [← hop]
  exact congrArg (· • _) (Amplitude.toComplex_phase phase)

/-- A unitary operator that the compiler classes as diagonal either has an entry on the diagonal that is too small to
carry a phase, which is an overflow, or it is compiled as the diagonal of its phases. With the entries off the diagonal
below the tolerance this is within a distance of the operator that the tolerance and the dimension determine. -/
theorem compile_diagonal_operator (hcutoff : c.settings.rotationCutoff = 0)
    (hU : U.toMatrix ∈ unitaryGroup (Fin (2 ^ n)) ℂ) (hclass : c.classify U n = .ok .diagonal) :
    (∃ x : Fin (2 ^ n), ‖U.toMatrix x x‖ < 1e-12 ∧
      (c.compile U n).Gives (.error (.overflow .diagonal x ‖U.toMatrix x x‖))) ∨
    ∃ (gates : List (ElementaryGate ℝ)) (phase : ℝ), (c.compile U n).Gives (.ok ⟨n, gates, phase, .diagonal⟩) ∧
      Program.operator ⟨n, gates, phase, .diagonal⟩ = diagonal (fun x => U.toMatrix x x / ‖U.toMatrix x x‖) ∧
      ‖Program.operator ⟨n, gates, phase, .diagonal⟩ - U.toMatrix‖ ≤
        √(2 * (2 ^ n : ℕ) * ((2 ^ n : ℕ) - 1)) * c.settings.diagonalTolerance := by
  by_cases hsmall : ∃ z ∈ U.diagonal, ‖z.toComplex‖ < minMagnitude
  case pos => exact .inl (compile_diagonal_overflows hclass hsmall)
  case neg =>
    right
    push Not at hsmall
    obtain ⟨gates, phase, hgives, hop⟩ := compile_diagonal_gives hcutoff hclass hsmall
    have htolerance := maxOffDiagonal_lt_of_classify hclass
    refine ⟨gates, phase, hgives, hop, ?_⟩
    rw [hop]
    apply norm_phaseDiagonal_sub_le hU
    · intro x
      have hx : x.val < U.diagonal.length := x.isLt.trans_eq U.length_diagonal.symm
      have hlarge := hsmall _ (List.getElem_mem hx)
      rw [Dense.getElem_diagonal] at hlarge
      exact norm_pos_iff.1 (minMagnitude_pos.trans_le hlarge)
    · exact fun x y hxy => (U.norm_le_maxOffDiagonal fun h => hxy (Fin.ext h)).trans htolerance.le
    · exact U.maxOffDiagonal_nonneg.trans htolerance.le

section Example

/-- The reflection along the uniform state of two qubits. -/
noncomputable def inversionAboutMean : Dense (Amplitude ℝ) (2 ^ 2) (2 ^ 2) := .ofMatrix (reflection fun _ => 1 / 2)

/-- The entries of the inversion about the mean. -/
lemma inversionAboutMean_apply (x y : Fin (2 ^ 2)) : inversionAboutMean.toMatrix x y = if x = y then 1 / 2 else -1 / 2 := by
  rw [inversionAboutMean, Dense.toMatrix_ofMatrix, reflection, Matrix.sub_apply, Matrix.smul_apply, vecMulVec_apply,
    one_apply]
  split <;> norm_num

/-- The inversion about the mean is unitary. -/
lemma inversionAboutMean_mem_unitary : inversionAboutMean.toMatrix ∈ unitaryGroup (Fin (2 ^ 2)) ℂ := by
  rw [inversionAboutMean, Dense.toMatrix_ofMatrix]
  apply reflection_mem_unitary
  norm_num [dotProduct]

/-- With a tolerance of one an operator counts as diagonal that is far from it. All entries on its diagonal are positive,
so that it is compiled as the identity. -/
theorem compile_diagonal_operator_mean : ∃ (gates : List (ElementaryGate ℝ)) (phase : ℝ),
    ((⟨{ Settings.standard with rotationCutoff := 0, diagonalTolerance := 1 }, .standard⟩ : Compiler ℝ).compile
      inversionAboutMean 2).Gives (.ok ⟨2, gates, phase, .diagonal⟩) ∧
      Program.operator ⟨2, gates, phase, .diagonal⟩ = 1 := by
  have hunitarity : (0 : ℝ) < Settings.standard.unitarityTolerance := by
    change (0 : ℝ) < 1e-8
    norm_num
  have hoff : inversionAboutMean.maxOffDiagonal < 1 := by
    apply lt_of_le_of_lt (b := 1 / 2) _ (by norm_num)
    apply Dense.maxOffDiagonal_le (by norm_num)
    intro x y hxy
    rw [inversionAboutMean_apply, if_neg fun h => hxy (congrArg Fin.val h)]
    norm_num
  have hclass : (⟨{ Settings.standard with rotationCutoff := 0, diagonalTolerance := 1 }, .standard⟩ : Compiler ℝ).classify
      inversionAboutMean 2 = .ok .diagonal := by
    rw [classify_eq_ok (by decide) (by decide) hunitarity inversionAboutMean_mem_unitary, classOf, if_neg (by decide),
      if_pos hoff]
  rcases compile_diagonal_operator rfl inversionAboutMean_mem_unitary hclass with
    ⟨x, hx, -⟩ | ⟨gates, phase, hgives, hop, -⟩
  · rw [inversionAboutMean_apply, if_pos rfl] at hx
    norm_num at hx
  · refine ⟨gates, phase, hgives, hop.trans ?_⟩
    have hphase : (1 / 2 : ℂ) / ‖(1 / 2 : ℂ)‖ = 1 := by norm_num
    simp only [inversionAboutMean_apply, if_true, hphase]
    exact diagonal_one

end Example

end Compiler

end CircuitSynthesis
