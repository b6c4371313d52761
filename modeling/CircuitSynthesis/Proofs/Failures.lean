import Mathlib
import CircuitSynthesis.Proofs.Guarded
import CircuitSynthesis.Proofs.Peeling
import CircuitSynthesis.Proofs.Sessions

/-!
# How an accepted input can fail

Whatever the arithmetic returns, an input that passed the checks is compiled or fails by an overflow; only an operator on two
qubits may also turn out to be degenerate, and one on a single qubit never fails (`accepted_safe`). The checks on shapes
inside the syntheses never fire, and no index or shift is out of range.
-/

namespace CircuitSynthesis

variable {R : Type} [Scalar R]

/-- From every sound cache a synthesis has a result as described, and so has the computation that checks every index and
shift. -/
def Synthesis.RunsAs {α : Type} (s : Synthesis R α) (g : Guarded R α) (P : Except (SynthesisError R) α → Prop) : Prop :=
  ∀ cache : SignTableCache R, cache.Sound →
    ∃ r cache', (s.run cache).run = (r, cache') ∧ g.run cache = some (r, cache') ∧ cache'.Sound ∧ P r

/-- A course that the checks keep to is what the synthesis does, and what it does with the checks. -/
lemma Synthesis.Keeps.runsAs {α : Type} {s : Synthesis R α} {g : Guarded R α} {r : Except (SynthesisError R) α} {ws : List ℕ}
    {P : Except (SynthesisError R) α → Prop} (h : s.Keeps g) (hs : s.Follows r ws) (hr : P r) : s.RunsAs g P :=
  fun cache hcache =>
    ⟨r, cache.lookUp ws, hs cache hcache, (h cache hcache).trans (congrArg some (hs cache hcache)), hcache.lookUp ws, hr⟩

/-- A synthesis that yields a result or overflows settles, with the checks as well. -/
lemma Synthesis.Keeps.runsAs_settles {α : Type} {s : Synthesis R α} {g : Guarded R α} {P : α → Prop} (h : s.Keeps g)
    (hs : s.Yields fun a _ => P a) : s.RunsAs g (Settles P) := by
  obtain ⟨r, ws, hrun, hr⟩ := hs
  exact h.runsAs hrun hr

/-- What such a synthesis gives it returns from the empty cache, also with every index and shift checked. -/
lemma Synthesis.RunsAs.returns {α : Type} {s : Synthesis R α} {g : Guarded R α} {P : Except (SynthesisError R) α → Prop}
    (h : s.RunsAs g P) {r : Except (SynthesisError R) α} (hr : s.Gives r) :
    ∃ cache, (s.run .empty).run = (r, cache) ∧ g.run .empty = some (r, cache) ∧ P r := by
  obtain ⟨r', cache, hrun, hguarded, -, hP⟩ := h .empty SignTableCache.sound_empty
  obtain ⟨cache', hrun', -⟩ := hr .empty SignTableCache.sound_empty
  obtain ⟨rfl, rfl⟩ := Prod.mk.inj (hrun.symm.trans hrun')
  exact ⟨cache, hrun, hguarded, hP⟩

namespace Compiler

variable {kernel : TwoQubit.SpectralKernel R} {settings : Settings R} {c : Compiler R}

/-- With checked settings, an accepted operator becomes a program on its qubits or fails as its class admits, and an accepted
state or diagonal becomes a program on its qubits or overflows. Peeling a block returns a diagonal of its dimension or
overflows, the reducer has a column for each step of a frame, and a ladder has a control for each of its angles as soon as it
has a control. None of this meets an index or a shift out of range. -/
theorem accepted_safe (h : make kernel settings = .ok c) :
    (∀ {m n : ℕ} (unitary : Dense (Amplitude R) m n) (qubits : ℕ) u, c.validate unitary qubits = .ok u →
      (c.compile unitary qubits).RunsAs (c.compile? unitary qubits)
        (Ends (fun p => p.width = qubits) (c.classOf u).MayFail)) ∧
    (∀ amplitudes k, c.AcceptsState amplitudes k →
      (c.prepareState amplitudes).RunsAs (c.prepareState? amplitudes) (Settles fun p => p.width = k)) ∧
    (∀ diagonal k, c.AcceptsDiagonal diagonal k → diagonal.length < 2 ^ wordBits →
      (c.compileDiagonal diagonal).RunsAs (c.compileDiagonal? diagonal) (Settles fun p => p.width = k)) ∧
    (∀ qubits active depth block, active + depth ≤ qubits → qubits ≤ c.settings.maxQubits.toNat →
      (c.peel qubits active block depth).RunsAs (c.peel? qubits active block depth)
        (Settles fun peeled => peeled.diagonal.length = 2 ^ active)) ∧
    (∀ k (block : Dense (Amplitude R) (2 ^ (k + 1)) (2 ^ (k + 1))),
      Settles (fun _ => True) ((Householder.Reducer.steps (2 ^ k)).run (.ofDense block)).run.1) ∧
    ∀ width, width - 1 ≠ 0 → (SignTable.build width : SignTable R width).ladder.length = 2 ^ (width - 1) := by
  have hmax : c.settings.maxQubits.toNat < wordBits := (maxQubits_le_of_make h).trans_lt (by decide)
  refine ⟨fun unitary qubits u hu => ?_, fun amplitudes k hk => ?_, fun diagonal k hk hlen => ?_,
    fun qubits active depth block hactive hqubits => ?_, fun k block => Householder.Reducer.steps_half_settle block,
    fun width => SignTable.length_ladder_build⟩
  · obtain ⟨r, ws, hrun, hr, -⟩ := compile_of_accepted hu
    exact (compile_keeps hmax unitary qubits).runsAs hrun (hr.imp fun p hp => hp.1)
  · exact (prepareState_keeps hmax amplitudes).runsAs_settles ((prepareState_yields hk).imp fun p ws hp => hp.1)
  · exact (c.compileDiagonal_keeps hlen).runsAs_settles ((compileDiagonal_yields hk).imp fun p ws hp => hp.1)
  · exact (c.peel_keeps hactive (hqubits.trans_lt hmax) block).runsAs_settles
      ((c.peel_yields (by omega) block depth).imp fun peeled ws hp => hp.2)

section Example

/-- The settings that leave out no rotation are accepted. -/
lemma make_unpruned : make .standard unpruned.settings = .ok unpruned :=
  make_eq_ok_iff.2 ⟨Settings.check_standard_of_cutoff le_rfl (by decide : ¬ ((12 : UInt32) = 0 ∨ 16 < (12 : UInt32))), rfl⟩

/-- The state with amplitudes `0.6` and `0.8 i`. -/
noncomputable def unevenState : List (Amplitude ℝ) := [⟨0.6, 0⟩, ⟨0, 0.8⟩]

/-- The state has norm one and fits on a wire. -/
lemma unevenState_accepted : unpruned.AcceptsState unevenState 1 := by
  refine ⟨rfl, one_pos, by decide, ?_⟩
  have hsum : Scalar.sum (unevenState.map Amplitude.normSq) = 0 + (0.6 * 0.6 + 0 * 0) + (0 * 0 + 0.8 * 0.8) := rfl
  rw [hsum]
  change |√(0 + (0.6 * 0.6 + 0 * 0) + (0 * 0 + 0.8 * 0.8)) - 1| ≤ (1e-8 : ℝ)
  norm_num

/-- The state is prepared, no number being out of range. -/
lemma prepareState_unevenState : ∃ (gates : List (ElementaryGate ℝ)) (phase : ℝ),
    (unpruned.prepareState unevenState).Gives (.ok ⟨1, gates, phase, .statePreparation⟩) := by
  have hunit : ‖amplitudes 1 (entry unevenState)‖ = 1 := by
    rw [← sq_eq_sq₀ (norm_nonneg _) zero_le_one, norm_amplitudes_sq]
    norm_num [Finset.sum_range_succ, entry, unevenState, ← Amplitude.normSq_eq_norm_sq, Amplitude.normSq]
  obtain ⟨gates, phase, hgives, -⟩ := synthesizeState_of_unit (m := 1) unevenState rfl hunit 0
  refine ⟨gates, phase, ?_⟩
  rw [prepareState_eq unevenState_accepted]
  exact hgives.bind (Synthesis.gives_pure _)

/-- The exchange of the last two of eight basis states, which is peeled down to one wire, a state and a diagonal. -/
theorem accepted_safe_exchangeLast :
    (∃ (p : Program ℝ) (cache : SignTableCache ℝ),
      ((unpruned.compile (.ofMatrix (inclusion (exchangeLast 2))) 3).run .empty).run = (.ok p, cache) ∧
      (unpruned.compile? (.ofMatrix (inclusion (exchangeLast 2))) 3).run .empty = some (.ok p, cache) ∧
      p.width = 3 ∧ p.strategy = .general) ∧
    (∃ (p : Program ℝ) (cache : SignTableCache ℝ),
      ((unpruned.prepareState unevenState).run .empty).run = (.ok p, cache) ∧
      (unpruned.prepareState? unevenState).run .empty = some (.ok p, cache) ∧ p.width = 1) ∧
    ∃ (p : Program ℝ) (cache : SignTableCache ℝ),
      ((unpruned.compileDiagonal [1, 1, 1, -1]).run .empty).run = (.ok p, cache) ∧
      (unpruned.compileDiagonal? [1, 1, 1, -1]).run .empty = some (.ok p, cache) ∧ p.width = 2 := by
  obtain ⟨hoperators, hstates, hdiagonals, -⟩ := accepted_safe make_unpruned
  refine ⟨?_, ?_, ?_⟩
  · obtain ⟨gates, phase, hgates, -⟩ := compileGeneral_gives (c := unpruned) rfl (ofMatrix_exchangeLast_mem_unitary 2)
      (peelsExactly_exchangeLast unpruned_diagonalTolerance_le 2)
    obtain ⟨cache, hrun, hguarded, hends⟩ := (hoperators _ 3 _ (validate_of_classify classify_exchangeLast).1).returns
      (compile_of_general classify_exchangeLast hgates)
    exact ⟨_, cache, hrun, hguarded, hends, rfl⟩
  · obtain ⟨gates, phase, hgives⟩ := prepareState_unevenState
    obtain ⟨cache, hrun⟩ := (hstates _ _ unevenState_accepted).returns hgives
    exact ⟨_, cache, hrun⟩
  · have htolerance : 0 < unpruned.settings.unitarityTolerance := by
      change (0 : ℝ) < 1e-8
      norm_num
    have hunit : ∀ z ∈ ([1, 1, 1, -1] : List (Amplitude ℝ)), ‖z.toComplex‖ = 1 := by simp
    obtain ⟨gates, phase, hgives⟩ := compileDiagonal_of_unit htolerance le_rfl (m := 1) rfl hunit
    obtain ⟨cache, hrun⟩ := (hdiagonals _ _ (acceptsDiagonal_of_unit htolerance (k := 2) rfl two_pos hunit)
      (by decide)).returns hgives
    exact ⟨_, cache, hrun⟩

end Example

end Compiler

end CircuitSynthesis
