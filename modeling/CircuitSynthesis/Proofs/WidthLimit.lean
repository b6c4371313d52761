import Mathlib
import CircuitSynthesis.Proofs.Sessions
import CircuitSynthesis.Proofs.Settings

/-!
# The limit on qubits

The settings name the most qubits that an operator may have. Operators and states over the limit are refused with a report
on their shape, so that the programs made for them stay within it. A diagonal is compiled without a look at the limit
(`session_widths`), and therefore can come back as a program that is too wide (`session_width_three_of_limit_two`).
-/

namespace CircuitSynthesis

variable {R : Type}

/-- Whether a call asks for more qubits than a limit, and is one of those that the limit is meant to stop. -/
def Call.Exceeds (limit : ℕ) : Call R → Prop
  | .compile _ qubits => limit < qubits
  | .prepareState amplitudes => 2 ^ limit < amplitudes.length
  | .compileDiagonal _ => False
  | .classify _ qubits => limit < qubits
  | .validate _ qubits => limit < qubits

namespace Compiler

variable [Scalar R] {c : Compiler R} {calls : List (Call R)} {call : Call R} {r : Except (SynthesisError R) (Answer R)}
  {p : Program R}

/-- The answer to a call that wraps the result of a synthesis. -/
lemma fresh_of_follows {α : Type} {s : Synthesis R α} {f : α → Answer R} {result : Except (SynthesisError R) α} {ws : List ℕ}
    (hcall : c.perform call = s >>= fun a => pure (f a)) (h : s.Follows result ws) : c.fresh call = result.map f := by
  cases result with
  | error e =>
    have hrun : (c.perform call).Follows (.error e) ws := hcall ▸ h.bind_error
    exact fresh_eq hrun
  | ok a =>
    have hrun : (c.perform call).Follows (.ok (f a)) (ws ++ []) := hcall ▸ h.bind (Synthesis.follows_pure (f a))
    exact fresh_eq hrun

omit [Scalar R] in
/-- An answer that is a program comes from that program. -/
lemma eq_of_map_program {result : Except (SynthesisError R) (Program R)} (h : result.map Answer.program = .ok (.program p)) :
    result = .ok p := by
  cases result with
  | error e => cases h
  | ok p' =>
    cases h
    rfl

/-- The answer to a call that is over the limit. -/
lemma fresh_of_exceeds (h : call.Exceeds c.settings.maxQubits.toNat) : ∃ fault, c.fresh call = .error (.shape fault) := by
  cases call with
  | compile unitary qubits =>
    obtain ⟨fault, hfault⟩ := validate_of_lt unitary h
    exact ⟨fault, fresh_of_follows rfl (compile_refused hfault)⟩
  | prepareState amplitudes =>
    obtain ⟨fault, hfault⟩ := prepareState_of_lt h
    exact ⟨fault, fresh_of_follows rfl hfault⟩
  | compileDiagonal diagonal => cases h
  | classify unitary qubits =>
    obtain ⟨fault, hfault⟩ := validate_of_lt unitary h
    have hkind : c.classify unitary qubits = .error (.shape fault) := by
      rw [classify, hfault]
      rfl
    have hrun : (liftM (c.classify unitary qubits) : Synthesis R _).Follows (.error (.shape fault)) [] :=
      hkind ▸ Synthesis.follows_lift _
    exact ⟨fault, fresh_of_follows rfl hrun⟩
  | validate unitary qubits =>
    obtain ⟨fault, hfault⟩ := validate_of_lt unitary h
    have hrun : (liftM (c.validate unitary qubits) : Synthesis R _).Follows (.error (.shape fault)) [] :=
      hfault ▸ Synthesis.follows_lift _
    exact ⟨fault, fresh_eq hrun.bind_error⟩

/-- The answer to an accepted diagonal, whatever its width. -/
lemma fresh_of_acceptsDiagonal {diagonal : List (Amplitude R)} {k : ℕ} (h : c.AcceptsDiagonal diagonal k) :
    (∃ p, c.fresh (.compileDiagonal diagonal) = .ok (.program p) ∧ p.width = k) ∨
      ∃ e, c.fresh (.compileDiagonal diagonal) = .error e ∧ e.IsOverflow := by
  obtain ⟨result, ws, hrun, hresult⟩ := compileDiagonal_yields h
  have hfresh : c.fresh (.compileDiagonal diagonal) = result.map Answer.program := fresh_of_follows rfl hrun
  cases result with
  | error e => exact .inr ⟨e, hfresh, hresult⟩
  | ok p => exact .inl ⟨p, hfresh, hresult.1⟩

/-- A program has a qubit. It stays within the limit, unless it was made for a diagonal. -/
lemma width_of_fresh (h : c.fresh call = .ok (.program p)) :
    1 ≤ p.width ∧
      (p.width ≤ c.settings.maxQubits.toNat ∨ ∃ diagonal, call = .compileDiagonal diagonal ∧ diagonal.length = 2 ^ p.width) := by
  cases call with
  | compile unitary qubits =>
    cases hvalid : c.validate unitary qubits with
    | error e =>
      rw [fresh_of_follows rfl (compile_refused hvalid)] at h
      cases h
    | ok u =>
      obtain ⟨-, -, hpos, hle⟩ := validate_eq_ok hvalid
      obtain ⟨result, ws, hrun, hresult, -⟩ := compile_of_accepted hvalid
      rw [fresh_of_follows rfl hrun] at h
      obtain rfl := eq_of_map_program h
      rw [hresult.1]
      exact ⟨hpos, .inl hle⟩
  | prepareState amplitudes =>
    by_cases haccepts : ∃ k, c.AcceptsState amplitudes k
    case neg =>
      obtain ⟨e, he⟩ := prepareState_refused (not_exists.1 haccepts)
      rw [fresh_of_follows rfl he] at h
      cases h
    case pos =>
      obtain ⟨k, hk⟩ := haccepts
      obtain ⟨result, ws, hrun, hresult⟩ := prepareState_yields hk
      rw [fresh_of_follows rfl hrun] at h
      obtain rfl := eq_of_map_program h
      rw [hresult.1]
      exact ⟨hk.pos, .inl hk.le_maxQubits⟩
  | compileDiagonal diagonal =>
    by_cases haccepts : ∃ k, c.AcceptsDiagonal diagonal k
    case neg =>
      obtain ⟨e, he⟩ := compileDiagonal_refused (not_exists.1 haccepts)
      rw [fresh_of_follows rfl he] at h
      cases h
    case pos =>
      obtain ⟨k, hk⟩ := haccepts
      rcases fresh_of_acceptsDiagonal hk with ⟨p', hp', hwidth⟩ | ⟨e, he, -⟩
      · rw [hp'] at h
        obtain rfl : p' = p := by injection h with h; injection h
        rw [hwidth]
        exact ⟨hk.pos, .inr ⟨diagonal, rfl, hk.length_eq⟩⟩
      · rw [he] at h
        cases h
  -- the other calls do not answer with a program
  | classify unitary qubits =>
    rw [fresh_of_follows (s := liftM (c.classify unitary qubits)) rfl (Synthesis.follows_lift _)] at h
    cases hkind : c.classify unitary qubits <;> rw [hkind] at h <;> cases h
  | validate unitary qubits =>
    rw [fresh_of_follows (s := liftM (c.validate unitary qubits)) (f := fun _ => .accepted) rfl (Synthesis.follows_lift _)] at h
    cases hvalid : c.validate unitary qubits <;> rw [hvalid] at h <;> cases h

/-- In every session a program has one qubit at least, and all programs but those of diagonals stay within the limit of
the settings; an operator or a state over the limit is refused for its shape. An accepted diagonal gets a program of its
own width, or overflows, on whichever side of the limit it is. -/
theorem session_widths (h : (call, r) ∈ calls.zip (c.session .empty calls).1) :
    (∀ p, r = .ok (.program p) → 1 ≤ p.width ∧ (p.width ≤ c.settings.maxQubits.toNat ∨
      ∃ diagonal, call = .compileDiagonal diagonal ∧ diagonal.length = 2 ^ p.width)) ∧
    (call.Exceeds c.settings.maxQubits.toNat → ∃ fault, r = .error (.shape fault)) ∧
    (∀ diagonal k, call = .compileDiagonal diagonal → c.AcceptsDiagonal diagonal k →
      (∃ p, r = .ok (.program p) ∧ p.width = k) ∨ ∃ e, r = .error e ∧ e.IsOverflow) := by
  obtain ⟨ws, hsession, -⟩ := c.session_follows SignTableCache.sound_empty calls
  rw [hsession, ← List.map_prod_left_eq_zip] at h
  obtain ⟨call', -, heq⟩ := List.mem_map.1 h
  obtain ⟨rfl, rfl⟩ := Prod.mk.inj heq
  refine ⟨fun p hp => width_of_fresh hp, fresh_of_exceeds, ?_⟩
  rintro diagonal k rfl hk
  exact fresh_of_acceptsDiagonal hk

section Example

/-- A compiler with the standard settings, but for a limit of two qubits. -/
noncomputable def narrow : Compiler ℝ := ⟨{ Settings.standard with maxQubits := 2 }, .standard⟩

/-- The identity on three qubits, as a diagonal. -/
noncomputable def threeQubits : List (Amplitude ℝ) := List.replicate 8 1

/-- The settings with a limit of two are accepted. -/
lemma make_narrow : make .standard narrow.settings = .ok narrow :=
  make_eq_ok_iff.2 ⟨Settings.check_standard (by decide), rfl⟩

/-- The compiler with a limit of two returns a program on three wires. -/
lemma narrow_session :
    ∃ p : Program ℝ, (narrow.session .empty [.compileDiagonal threeQubits]).1 = [.ok (.program p)] ∧ p.width = 3 := by
  have htolerance : 0 < narrow.settings.unitarityTolerance := by
    change (0 : ℝ) < 1e-8
    norm_num
  have hcutoff : 0 ≤ narrow.settings.rotationCutoff := by
    change (0 : ℝ) ≤ 1e-12
    norm_num
  have hunit : ∀ z ∈ threeQubits, ‖z.toComplex‖ = 1 := by
    intro z hz
    rw [List.eq_of_mem_replicate hz, Amplitude.toComplex_one, norm_one]
  obtain ⟨gates, phase, hgives⟩ := compileDiagonal_of_unit htolerance hcutoff (d := threeQubits) (m := 2) rfl hunit
  obtain ⟨cache, hrun, -⟩ := hgives.bind (f := fun p => pure (Answer.program p)) (Synthesis.gives_pure _)
    .empty SignTableCache.sound_empty
  refine ⟨⟨3, gates, phase, .diagonal⟩, ?_, rfl⟩
  have hfresh : narrow.fresh (.compileDiagonal threeQubits) = .ok (.program ⟨3, gates, phase, .diagonal⟩) :=
    congrArg Prod.fst hrun
  obtain ⟨ws, hsession, -⟩ := narrow.session_follows SignTableCache.sound_empty [.compileDiagonal threeQubits]
  rw [hsession, List.map_singleton, hfresh]

/-- A compiler for two qubits at most returns a program on three. -/
theorem session_width_three_of_limit_two :
    ∃ c : Compiler ℝ, make .standard c.settings = .ok c ∧ c.settings.maxQubits.toNat = 2 ∧
      ∃ p : Program ℝ, (c.session .empty [.compileDiagonal (List.replicate 8 1)]).1 = [.ok (.program p)] ∧
        ¬ p.width ≤ c.settings.maxQubits.toNat := by
  obtain ⟨p, hp, hwidth⟩ := narrow_session
  refine ⟨narrow, make_narrow, rfl, p, hp, ?_⟩
  rw [hwidth]
  decide

/-- The program on three wires has at least one wire. -/
theorem session_widths_narrow : ∃ p : Program ℝ,
    (.compileDiagonal threeQubits, .ok (.program p)) ∈
      [Call.compileDiagonal threeQubits].zip (narrow.session .empty [.compileDiagonal threeQubits]).1 ∧ 1 ≤ p.width := by
  obtain ⟨p, hp, -⟩ := narrow_session
  have hmem : (.compileDiagonal threeQubits, .ok (.program p)) ∈
      [Call.compileDiagonal threeQubits].zip (narrow.session .empty [.compileDiagonal threeQubits]).1 := by
    rw [hp]
    exact List.mem_singleton_self _
  exact ⟨p, hmem, ((session_widths hmem).1 p rfl).1⟩

end Example

end Compiler

end CircuitSynthesis
