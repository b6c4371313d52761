import Mathlib
import CircuitSynthesis.Session
import CircuitSynthesis.TwoQubit.StandardKernel
import CircuitSynthesis.Proofs.Acceptance

/-!
# Sessions do not remember

A call follows the same course from every cache that earlier calls can leave (`perform_follows`). By induction over the
calls a session gives the answers of new compilers and leaves the empty cache with some tables looked up
(`session_follows`). Hence `session_spec`: the answers do not depend on what was called before, tables are built once and
kept, and unless a number overflows their widths are those from one to the largest that a program was made with.
-/

namespace CircuitSynthesis

variable {R : Type}

/-- The largest width of a table that an answer was made with. -/
def Answer.span : Answer R → ℕ
  | .program p => p.span
  | .classification _ => 0
  | .accepted => 0

/-- Whether a program that is returned is placed on its wires. -/
def Answer.IsPlaced : Answer R → Prop
  | .program p => p.IsPlaced
  | .classification _ => True
  | .accepted => True

/-- The span of the answer to a call; there is none if the call failed. -/
def resultSpan : Except (SynthesisError R) (Answer R) → ℕ
  | .ok answer => answer.span
  | .error _ => 0

/-- The largest span among the answers of a session. -/
def largestSpan (answers : List (Except (SynthesisError R) (Answer R))) : ℕ := (answers.map resultSpan).foldr max 0

/-- Whether no call of a session failed by an overflow. -/
def NoOverflow (answers : List (Except (SynthesisError R) (Answer R))) : Prop := ∀ e, .error e ∈ answers → ¬ e.IsOverflow

namespace Compiler

variable [Scalar R] {c : Compiler R} {cache : SignTableCache R}

/-- A call answers from the empty cache what it answers on its course. -/
lemma fresh_eq {call : Call R} {r : Except (SynthesisError R) (Answer R)} {ws : List ℕ}
    (h : (c.perform call).Follows r ws) : c.fresh call = r :=
  congrArg Prod.fst (h .empty SignTableCache.sound_empty)

/-- Every call is refused before a table is looked up, overflows or looks up the tables of the widths up to the span of its
answer. -/
lemma perform_answers (c : Compiler R) (call : Call R) :
    (c.perform call).Answers fun answer ws => answer.IsPlaced ∧ ∀ w, w ∈ ws ↔ 1 ≤ w ∧ w ≤ answer.span := by
  cases call with
  | compile unitary qubits => exact (c.compile_answers unitary qubits).bind_pure fun _ _ h => h
  | prepareState amplitudes => exact (c.prepareState_answers amplitudes).bind_pure fun _ _ h => h
  | compileDiagonal diagonal => exact (c.compileDiagonal_answers diagonal).bind_pure fun _ _ h => h
  | classify unitary qubits =>
    exact Synthesis.answers_lift_bind fun kind _ => .inr (Synthesis.yields_pure ⟨trivial, mem_nil_iff_le⟩)
  | validate unitary qubits =>
    exact Synthesis.answers_lift_bind fun u _ => .inr (Synthesis.yields_pure ⟨trivial, mem_nil_iff_le⟩)

/-- A call answers as a new compiler does. Its program is placed, and unless a number overflows the tables that it looks
up are those up to the span of the answer. -/
theorem perform_follows (c : Compiler R) (call : Call R) :
    ∃ ws, (c.perform call).Follows (c.fresh call) ws ∧ (∀ answer, c.fresh call = .ok answer → answer.IsPlaced) ∧
      ((∀ e, c.fresh call = .error e → ¬ e.IsOverflow) → ∀ w, w ∈ ws ↔ 1 ≤ w ∧ w ≤ resultSpan (c.fresh call)) := by
  rcases c.perform_answers call with ⟨e, he⟩ | ⟨r, ws, hrun, hr⟩
  · refine ⟨[], ?_⟩
    rw [fresh_eq he]
    exact ⟨he, nofun, fun _ w => mem_nil_iff_le w⟩
  · refine ⟨ws, ?_⟩
    rw [fresh_eq hrun]
    refine ⟨hrun, fun answer hanswer => ?_, fun hno => ?_⟩
    · subst hanswer
      exact hr.1
    · cases r with
      | error e => exact absurd hr (hno e rfl)
      | ok answer => exact hr.2

/-- A session from a sound cache answers call by call as new compilers do. -/
theorem session_follows (c : Compiler R) (hcache : cache.Sound) (calls : List (Call R)) :
    ∃ ws, c.session cache calls = (calls.map c.fresh, cache.lookUp ws) ∧
      (NoOverflow (calls.map c.fresh) → ∀ w, w ∈ ws ↔ 1 ≤ w ∧ w ≤ largestSpan (calls.map c.fresh)) := by
  induction calls generalizing cache with
  | nil => exact ⟨[], rfl, fun _ w => mem_nil_iff_le w⟩
  | cons call calls ih =>
    obtain ⟨ws, hcall, -, hwidths⟩ := c.perform_follows call
    obtain ⟨ws', hrest, hwidths'⟩ := ih (hcache.lookUp ws)
    refine ⟨ws ++ ws', ?_, fun hno w => ?_⟩
    · rw [session, hcall cache hcache]
      dsimp only
      rw [hrest, SignTableCache.lookUp_append]
      rfl
    · have hfirst := hwidths (fun e he => hno e (List.mem_cons.2 (.inl he.symm))) w
      have hlater := hwidths' (fun e he => hno e (List.mem_cons_of_mem _ he)) w
      have hspan : largestSpan ((call :: calls).map c.fresh) =
        max (resultSpan (c.fresh call)) (largestSpan (calls.map c.fresh)) := rfl
      rw [List.mem_append, hfirst, hlater, hspan, le_max_iff, and_or_left]

/-- A session may be interrupted. -/
lemma session_append (c : Compiler R) (cache : SignTableCache R) (calls more : List (Call R)) :
    (c.session cache (calls ++ more)).2 = (c.session (c.session cache calls).2 more).2 := by
  induction calls generalizing cache with
  | nil => rfl
  | cons call calls ih => exact ih _

/-- Every call of a session returns what it would return on a new compiler. The cache holds the table of each width,
once built they stay when more calls follow, and unless a call overflows the widths are those from one to the largest
that a diagonal, a state or a general operator was synthesized for. -/
theorem session_spec (c : Compiler R) (calls : List (Call R)) :
    (c.session .empty calls).1 = calls.map c.fresh ∧
    (c.session .empty calls).2.Sound ∧
    (∀ more, (c.session .empty calls).2.tables <+: (c.session .empty (calls ++ more)).2.tables) ∧
    (NoOverflow (c.session .empty calls).1 →
      (c.session .empty calls).2.widths.Perm (List.range' 1 (largestSpan (c.session .empty calls).1)) ∧
      (c.session .empty calls).2.size = largestSpan (c.session .empty calls).1) := by
  obtain ⟨ws, hrun, hwidths⟩ := c.session_follows SignTableCache.sound_empty calls
  have hsound : (c.session .empty calls).2.Sound := hrun ▸ SignTableCache.sound_empty.lookUp ws
  refine ⟨by rw [hrun], hsound, fun more => ?_, fun hno => ?_⟩
  · obtain ⟨ws', hmore, -⟩ := c.session_follows hsound more
    rw [session_append, hmore]
    exact SignTableCache.prefix_lookUp _ ws'
  · rw [hrun] at hno ⊢
    have hempty : (SignTableCache.empty : SignTableCache R).widths = [] := rfl
    have hnodup : (SignTableCache.empty.lookUp ws : SignTableCache R).widths.Nodup :=
      SignTableCache.nodup_widths_lookUp (hempty ▸ List.nodup_nil) ws
    have hperm : (SignTableCache.empty.lookUp ws : SignTableCache R).widths.Perm
        (List.range' 1 (largestSpan (calls.map c.fresh))) := by
      refine (List.perm_ext_iff_of_nodup hnodup List.nodup_range').2 fun w => ?_
      rw [SignTableCache.mem_widths_lookUp, hempty, or_iff_right List.not_mem_nil, hwidths hno, List.mem_range'_1]
      omega
    refine ⟨hperm, ?_⟩
    have hlength := hperm.length_eq
    rwa [SignTableCache.widths, List.length_map, List.length_range'] at hlength

section Example

/-- A diagonal whose entries have modulus one is compiled. -/
lemma compileDiagonal_of_unit {c : Compiler ℝ} (htolerance : 0 < c.settings.unitarityTolerance)
    (hcutoff : 0 ≤ c.settings.rotationCutoff) {m : ℕ} {d : List (Amplitude ℝ)} (hlen : d.length = 2 ^ (m + 1))
    (hunit : ∀ z ∈ d, ‖z.toComplex‖ = 1) :
    ∃ (gates : List (ElementaryGate ℝ)) (phase : ℝ),
      (c.compileDiagonal d).Gives (.ok ⟨m + 1, gates, phase, .diagonal⟩) := by
  obtain ⟨gates, phase, -, hgives, -⟩ :=
    synthesizeDiagonal_gives d hlen (fun z hz => (hunit z hz).symm ▸ minMagnitude_le_one) 0 hcutoff
  refine ⟨gates, phase, ?_⟩
  rw [compileDiagonal_eq (acceptsDiagonal_of_unit htolerance hlen m.succ_pos hunit)]
  exact hgives.bind (Synthesis.gives_pure _)

/-- A compiler with the standard settings. -/
noncomputable def plain : Compiler ℝ := ⟨.standard, .standard⟩

/-- A matrix that is not square is refused, then the diagonal with entries `1, 1, 1, -1` is compiled. -/
noncomputable def refusedThenSigned : List (Call ℝ) :=
  [.validate (.ofFn fun (_ : Fin 1) (_ : Fin 2) => 0) 1, .compileDiagonal [1, 1, 1, -1]]

/-- New compilers give a refusal and a program. -/
lemma refusedThenSigned_answers : ∃ (gates : List (ElementaryGate ℝ)) (phase : ℝ),
    refusedThenSigned.map plain.fresh =
      [.error (.shape (.notSquare 1 2)), .ok (.program ⟨2, gates, phase, .diagonal⟩)] := by
  have htolerance : 0 < plain.settings.unitarityTolerance := by
    change (0 : ℝ) < 1e-8
    norm_num
  have hcutoff : 0 ≤ plain.settings.rotationCutoff := by
    change (0 : ℝ) ≤ 1e-12
    norm_num
  obtain ⟨gates, phase, hgives⟩ := compileDiagonal_of_unit htolerance hcutoff (d := [1, 1, 1, -1]) (m := 1) rfl (by simp)
  obtain ⟨cache, hrun, -⟩ := Synthesis.Gives.bind (f := fun p => pure (Answer.program p)) hgives (Synthesis.gives_pure _)
    .empty SignTableCache.sound_empty
  have hsecond : plain.fresh (.compileDiagonal [1, 1, 1, -1]) = .ok (.program ⟨2, gates, phase, .diagonal⟩) :=
    congrArg Prod.fst hrun
  refine ⟨gates, phase, ?_⟩
  rw [refusedThenSigned, List.map_cons, List.map_cons, hsecond]
  rfl

/-- The session returns that program. -/
lemma mem_session_refusedThenSigned : ∃ (gates : List (ElementaryGate ℝ)) (phase : ℝ),
    .ok (.program ⟨2, gates, phase, .diagonal⟩) ∈ (plain.session .empty refusedThenSigned).1 := by
  obtain ⟨gates, phase, hanswers⟩ := refusedThenSigned_answers
  obtain ⟨ws, hsession, -⟩ := plain.session_follows SignTableCache.sound_empty refusedThenSigned
  refine ⟨gates, phase, ?_⟩
  rw [hsession, hanswers]
  exact List.mem_cons_of_mem _ List.mem_cons_self

/-- The diagonal is compiled after the refusal, with tables of the widths one and two. -/
theorem session_spec_refusedThenSigned : ∃ (gates : List (ElementaryGate ℝ)) (phase : ℝ),
    (plain.session .empty refusedThenSigned).1 =
      [.error (.shape (.notSquare 1 2)), .ok (.program ⟨2, gates, phase, .diagonal⟩)] ∧
    NoOverflow (plain.session .empty refusedThenSigned).1 ∧
    (plain.session .empty refusedThenSigned).2.widths.Perm [1, 2] ∧
    (plain.session .empty refusedThenSigned).2.size = 2 := by
  obtain ⟨gates, phase, hanswers⟩ := refusedThenSigned_answers
  obtain ⟨hfresh, -, -, hwidths⟩ := session_spec plain refusedThenSigned
  have hsession := hfresh.trans hanswers
  have hno : NoOverflow (plain.session .empty refusedThenSigned).1 := by
    rw [hsession]
    intro e he hoverflow
    obtain rfl : e = .shape (.notSquare 1 2) := by simpa using he
    exact hoverflow
  have hspan : largestSpan (plain.session .empty refusedThenSigned).1 = 2 := by
    rw [hsession]
    rfl
  have h := hwidths hno
  rw [hspan] at h
  exact ⟨gates, phase, hsession, hno, h⟩

end Example

end Compiler

end CircuitSynthesis
