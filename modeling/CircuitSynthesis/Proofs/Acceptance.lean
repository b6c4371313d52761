import Mathlib
import CircuitSynthesis.Proofs.Outcomes

/-!
# What a compiler accepts

An input is checked before anything is synthesized. `validate_eq_ok` says what is known of an operator that passes;
`AcceptsState` and `AcceptsDiagonal` list what a state and a diagonal have to meet. An input that does not pass is refused
before a table is looked up. One that passes is synthesized or fails in one of the ways that its class admits
(`compile_of_accepted`, `prepareState_yields`, `compileDiagonal_yields`), whatever the arithmetic returns.
-/

namespace CircuitSynthesis

variable {R : Type} {α β : Type}

/-- A result with a property, or an error of a kind. -/
def Ends (P : α → Prop) (F : SynthesisError R → Prop) : Except (SynthesisError R) α → Prop
  | .ok a => P a
  | .error e => F e

namespace Ends

variable {P : α → Prop} {Q : β → Prop} {F : SynthesisError R → Prop} {r : Except (SynthesisError R) α}

/-- What follows a result may end as it likes within the same kinds of error. -/
lemma bind (h : Ends P F r) {f : α → Except (SynthesisError R) β} (hf : ∀ a, P a → Ends Q F (f a)) :
    Ends Q F (r >>= f) := by
  cases r with
  | error e => exact h
  | ok a => exact hf a h

/-- A weaker property of the result ends as well. -/
lemma imp (h : Ends P F r) {P' : α → Prop} (himp : ∀ a, P a → P' a) : Ends P' F r := by
  cases r with
  | error e => exact h
  | ok a => exact himp a h

/-- A guard that fails with an error of the kind, or goes on. -/
lemma guard {c : Prop} [Decidable c] {e : SynthesisError R} (he : F e) {f : PUnit → Except (SynthesisError R) β}
    (hf : Ends Q F (f ⟨⟩)) : Ends Q F (if c then throw e >>= f else f ⟨⟩) := by
  split
  case isTrue => exact he
  case isFalse => exact hf

end Ends

/-- How the synthesis of a class can fail. -/
def Classification.MayFail : Classification → SynthesisError R → Prop
  | .singleQubit, _ => False
  | .twoQubit, .degenerate _ => True
  | .twoQubit, .overflow stage _ _ => stage = .twoQubitProjection
  | .twoQubit, _ => False
  | .diagonal, e => e.IsOverflow
  | .general, e => e.IsOverflow

/-- A class whose synthesis looks up tables fails by an overflow only. -/
lemma Classification.MayFail.isOverflow {kind : Classification} {e : SynthesisError R} (h : kind.MayFail e)
    (htables : kind.strategy.usesTables = true) : e.IsOverflow := by
  cases kind with
  | singleQubit => cases htables
  | twoQubit => cases htables
  | diagonal => exact h
  | general => exact h

variable [Scalar R]

namespace TwoQubit

/-- Whatever it is given, the search for local factors can only find them degenerate. -/
lemma LocalFactors.ofTensor_ends (k : Dense (Amplitude R) 4 4) (swapped : Bool) :
    Ends (fun _ => True) Classification.twoQubit.MayFail (ofTensor k swapped) := by
  rw [ofTensor]
  refine Ends.guard ?_ ?_
  · trivial
  refine Ends.guard ?_ (Ends.guard ?_ ?_) <;> trivial

/-- Whatever it is given, the search for the factors of a rotation can only find it degenerate. -/
lemma LocalFactors.ofOrthogonal_ends (q : Dense R 4 4) :
    Ends (fun _ => True) Classification.twoQubit.MayFail (ofOrthogonal q) := by
  rw [ofOrthogonal]
  refine Ends.guard ?_ (ofTensor_ends _ _)
  trivial

/-- The closest unitary matrix is found, or a number overflows in the projection. -/
lemma closestUnitary_ends (kernel : SpectralKernel R) (u : Dense (Amplitude R) 4 4) :
    Ends (fun _ => True) Classification.twoQubit.MayFail (closestUnitary kernel u) := by
  rw [closestUnitary]
  split
  case h_1 => trivial
  case h_2 => exact rfl

/-- Diagonalization finds a basis or reports that no mixing separates the eigenspaces. -/
lemma diagonalize_ends (kernel : SpectralKernel R) (draws : ℕ → R) (attempts : ℕ) (m : Dense (Amplitude R) 4 4) :
    Ends (fun _ => True) Classification.twoQubit.MayFail (diagonalize kernel draws attempts m) := by
  rw [diagonalize]
  split
  case h_1 => trivial
  case h_2 => trivial

/-- A decomposition is found, or it is degenerate, or the operator cannot be projected to the unitary group. -/
theorem Decomposition.ofUnitary_ends (kernel : SpectralKernel R) (seed : UInt64) (attempts : ℕ) (u : Dense (Amplitude R) 4 4) :
    Ends (fun _ => True) Classification.twoQubit.MayFail (ofUnitary kernel seed attempts u) := by
  rw [ofUnitary]
  refine Ends.guard ?_ ?_
  · trivial
  refine (closestUnitary_ends kernel u).bind fun v _ => ?_
  refine (diagonalize_ends kernel _ attempts _).bind fun p _ => ?_
  refine (LocalFactors.ofOrthogonal_ends _).bind fun outer _ => ?_
  refine (LocalFactors.ofOrthogonal_ends _).bind fun inner _ => ?_
  refine Ends.guard ?_ ?_ <;> trivial

end TwoQubit

namespace Synthesis

variable {α β : Type} {Q : β → List ℕ → Prop}

/-- A synthesis is refused before any table is looked up, or it overflows, or it is as described. -/
def Answers (s : Synthesis R β) (Q : β → List ℕ → Prop) : Prop := (∃ e, s.Follows (.error e) []) ∨ s.Yields Q

/-- A check that comes first refuses or goes on. -/
lemma answers_lift_bind {r : Except (SynthesisError R) α} {f : α → Synthesis R β}
    (h : ∀ a, r = .ok a → (f a).Answers Q) : (liftM r >>= f).Answers Q := by
  cases r with
  | error e => exact .inl ⟨e, (follows_lift (.error e)).bind_error⟩
  | ok a =>
    have hok : (liftM (.ok a : Except (SynthesisError R) α) : Synthesis R α).Follows (.ok a) [] := follows_lift (.ok a)
    rcases h a rfl with ⟨e, he⟩ | ⟨r, ws, hrun, hr⟩
    · exact .inl ⟨e, hok.bind he⟩
    · exact .inr ⟨r, ws, hok.bind hrun, hr⟩

/-- A pure last step only has to keep the property. -/
lemma Answers.bind_pure {s : Synthesis R α} {P : α → List ℕ → Prop} (h : s.Answers P) {f : α → β}
    (hf : ∀ a ws, P a ws → Q (f a) ws) : (s >>= fun a => pure (f a)).Answers Q := by
  rcases h with ⟨e, he⟩ | hs
  · exact .inl ⟨e, he.bind_error⟩
  · exact .inr (hs.bind fun a ws ha => yields_pure ((List.append_nil ws).symm ▸ hf a ws ha))

end Synthesis

namespace Compiler

variable {c : Compiler R} {m n qubits : ℕ} {unitary : Dense (Amplitude R) m n}

section Operators

/-- An accepted operator has one qubit at least, no more than the settings admit, and the dimension that goes with them. -/
lemma validate_eq_ok {u : Dense (Amplitude R) (2 ^ qubits) (2 ^ qubits)} (h : c.validate unitary qubits = .ok u) :
    m = 2 ^ qubits ∧ n = 2 ^ qubits ∧ 0 < qubits ∧ qubits ≤ c.settings.maxQubits.toNat := by
  rw [validate] at h
  simp only [bind, Except.bind, pure, Except.pure] at h
  split_ifs at h with hsquare hzero hlimit hdim hunitary
  exact ⟨hdim.1, hdim.2, Nat.pos_of_ne_zero hzero, Nat.not_lt.1 hlimit⟩

/-- Whatever else is wrong with an operator on too many qubits, its shape is reported. -/
lemma validate_of_lt (unitary : Dense (Amplitude R) m n) (h : c.settings.maxQubits.toNat < qubits) :
    ∃ fault, c.validate unitary qubits = .error (.shape fault) := by
  rw [validate]
  by_cases hsquare : m = n
  case neg => exact ⟨.notSquare m n, if_pos hsquare⟩
  case pos =>
    refine ⟨.tooManyQubits qubits c.settings.maxQubits.toNat, ?_⟩
    rw [if_neg (not_not.2 hsquare), if_neg (Nat.ne_zero_of_lt h), if_pos h]
    rfl

/-- The two classes with a synthesis of their own fix the number of qubits. -/
lemma eq_of_classOf {u : Dense (Amplitude R) (2 ^ qubits) (2 ^ qubits)} :
    (c.classOf u = .singleQubit → qubits = 1) ∧ (c.classOf u = .twoQubit → qubits = 2) := by
  rw [classOf]
  split_ifs with hone hdiagonal htwo
  · exact ⟨fun _ => hone, nofun⟩
  · exact ⟨nofun, nofun⟩
  · exact ⟨nofun, fun _ => htwo⟩
  · exact ⟨nofun, nofun⟩

/-- An operator on two qubits has the dimension that the factorization asks for, and its gates are placed on its wires. -/
lemma compileTwoQubit_ends (c : Compiler R) (u : Dense (Amplitude R) (2 ^ 2) (2 ^ 2)) :
    Ends (fun out => ∀ g ∈ out.1, g.IsPlaced 2) Classification.twoQubit.MayFail (c.compileTwoQubit u) := by
  rw [compileTwoQubit, TwoQubit.fourByFour, dif_pos ⟨rfl, rfl⟩]
  exact (TwoQubit.Decomposition.ofUnitary_ends c.kernel _ _ _).bind fun d _ => d.isPlaced_gates c.settings.rotationCutoff

/-- The synthesis of each class. Those that fail by anything but an overflow look up no tables. -/
theorem compileAs_ends (c : Compiler R) (u : Dense (Amplitude R) (2 ^ qubits) (2 ^ qubits)) :
    ∃ r ws, (c.compileAs u (c.classOf u)).Follows r ws ∧
      Ends (fun out => Covers qubits (if (c.classOf u).strategy.usesTables then qubits else 0) out ws)
        (c.classOf u).MayFail r ∧
      ((c.classOf u).strategy.usesTables = false → ws = []) := by
  cases hkind : c.classOf u with
  | singleQubit =>
    obtain rfl := eq_of_classOf.1 hkind
    rw [compileAs, dif_pos (by decide : 2 ≤ 2 ^ 1)]
    refine ⟨_, [], Synthesis.follows_pure _, ⟨?_, mem_nil_iff_le⟩, fun _ => rfl⟩
    simp [compileSingleQubit]
  | twoQubit =>
    obtain rfl := eq_of_classOf.2 hkind
    refine ⟨_, [], Synthesis.follows_lift _, (c.compileTwoQubit_ends u).imp fun out h => ?_, fun _ => rfl⟩
    exact ⟨h, mem_nil_iff_le⟩
  | diagonal =>
    have hdiagonal : (synthesizeDiagonal u.diagonal 0 c.settings.rotationCutoff).Yields (Covers qubits qubits) :=
      synthesizeDiagonal_yields (by simp) (Nat.zero_add qubits)
    obtain ⟨r, ws, hrun, hr⟩ := hdiagonal
    exact ⟨r, ws, hrun, hr, nofun⟩
  | general =>
    obtain ⟨r, ws, hrun, hr⟩ := c.compileGeneral_yields u
    exact ⟨r, ws, hrun, hr, nofun⟩

/-- Once an operator is accepted, compiling it returns a placed program on its qubits or fails as its class admits. -/
theorem compile_of_accepted {u : Dense (Amplitude R) (2 ^ qubits) (2 ^ qubits)} (h : c.validate unitary qubits = .ok u) :
    ∃ r ws, (c.compile unitary qubits).Follows r ws ∧
      Ends (fun p => p.width = qubits ∧ p.Covered ws) (c.classOf u).MayFail r ∧
      ((c.classOf u).strategy.usesTables = false → ws = []) := by
  obtain ⟨r, ws, hrun, hr, hnone⟩ := c.compileAs_ends u
  have hvalid : (liftM (c.validate unitary qubits) : Synthesis R _).Follows (.ok u) [] := h ▸ Synthesis.follows_lift _
  rw [compile]
  cases r with
  | error e => exact ⟨.error e, ws, hvalid.bind hrun.bind_error, hr, hnone⟩
  | ok out =>
    refine ⟨.ok ⟨qubits, out.1, out.2, (c.classOf u).strategy⟩, ws, ?_, ⟨rfl, hr.placed, hr.widths⟩, hnone⟩
    rw [← List.append_nil ws, ← List.nil_append (ws ++ [])]
    exact hvalid.bind (hrun.bind (Synthesis.follows_pure _))

/-- An operator that does not pass the checks is refused before a table is looked up. -/
lemma compile_refused {e : SynthesisError R} (h : c.validate unitary qubits = .error e) :
    (c.compile unitary qubits).Follows (.error e) [] := by
  rw [compile, h]
  exact (Synthesis.follows_lift (.error e)).bind_error

/-- Compiling refuses an operator before a table is looked up, overflows or returns a covered program. -/
theorem compile_answers (c : Compiler R) (unitary : Dense (Amplitude R) m n) (qubits : ℕ) :
    (c.compile unitary qubits).Answers Program.Covered := by
  cases h : c.validate unitary qubits with
  | error e => exact .inl ⟨e, compile_refused h⟩
  | ok u =>
    obtain ⟨r, ws, hrun, hr, hnone⟩ := compile_of_accepted h
    cases r with
    | ok p => exact .inr ⟨_, ws, hrun, hr.2⟩
    | error e =>
      cases htables : (c.classOf u).strategy.usesTables with
      | false =>
        obtain rfl := hnone htables
        exact .inl ⟨e, hrun⟩
      | true => exact .inr ⟨_, ws, hrun, Classification.MayFail.isOverflow hr htables⟩

end Operators

/-- Whether a number of entries is that of a register of one qubit or more. -/
lemma length_check_iff {length : ℕ} :
    ¬ (decide (length < 2) || !isPowerOfTwo length) = true ↔ ∃ m, 0 < m ∧ length = 2 ^ m := by
  rw [Bool.or_eq_true, not_or, decide_eq_true_iff, Bool.not_eq_true', Bool.not_eq_false, isPowerOfTwo_iff, not_lt]
  constructor
  · rintro ⟨hle, m, rfl⟩
    exact ⟨m, Nat.pos_of_ne_zero (Nat.one_lt_two_pow_iff.1 hle), rfl⟩
  · rintro ⟨m, hm, rfl⟩
    exact ⟨Nat.one_lt_two_pow hm.ne', m, rfl⟩

section States

variable {amplitudes : List (Amplitude R)} {k : ℕ}

/-- The checks that a state of `k` qubits has to pass. -/
structure AcceptsState (c : Compiler R) (amplitudes : List (Amplitude R)) (k : ℕ) : Prop where
  length_eq : amplitudes.length = 2 ^ k
  pos : 0 < k
  le_maxQubits : k ≤ c.settings.maxQubits.toNat
  norm_close : Scalar.abs (Scalar.sqrt (Scalar.sum (amplitudes.map Amplitude.normSq)) - 1) ≤ c.settings.unitarityTolerance

/-- An accepted state is handed to the synthesis. -/
lemma prepareState_eq (h : c.AcceptsState amplitudes k) : c.prepareState amplitudes = do
    let (gates, phase) ← synthesizeState amplitudes 0 c.settings.rotationCutoff
    return ⟨k, gates, phase, .statePreparation⟩ := by
  have hlog : amplitudes.length.log2 = k := h.length_eq ▸ Nat.log2_two_pow
  rw [prepareState]
  dsimp only
  rw [if_neg (length_check_iff.2 ⟨k, h.pos, h.length_eq⟩), hlog, if_neg (Nat.not_lt.2 h.le_maxQubits), if_pos h.norm_close]

/-- An accepted state is prepared, unless a number overflows. -/
theorem prepareState_yields (h : c.AcceptsState amplitudes k) :
    (c.prepareState amplitudes).Yields fun p ws => p.width = k ∧ p.Covered ws := by
  rw [prepareState_eq h]
  refine (synthesizeState_yields h.length_eq (Nat.zero_add k)).bind fun out ws hout => ?_
  rw [← List.append_nil ws] at hout
  exact Synthesis.yields_pure ⟨rfl, hout.placed, hout.widths⟩

/-- A state that fails a check is refused before a table is looked up. -/
theorem prepareState_refused (h : ∀ k, ¬ c.AcceptsState amplitudes k) :
    ∃ e, (c.prepareState amplitudes).Follows (.error e) [] := by
  rw [prepareState]
  dsimp only
  split
  case isTrue => exact ⟨_, (Synthesis.follows_throw _).bind_error⟩
  case isFalse hlength =>
    obtain ⟨k, hk, hlen⟩ := length_check_iff.1 hlength
    rw [hlen, Nat.log2_two_pow]
    split
    case isTrue => exact ⟨_, (Synthesis.follows_throw _).bind_error⟩
    case isFalse hlimit =>
      split
      case isTrue hnorm => exact absurd ⟨hlen, hk, Nat.not_lt.1 hlimit, hnorm⟩ (h k)
      case isFalse => exact ⟨_, Synthesis.follows_throw _⟩

/-- Whatever else is wrong with a state of too many qubits, its shape is reported. -/
theorem prepareState_of_lt (h : 2 ^ c.settings.maxQubits.toNat < amplitudes.length) :
    ∃ fault, (c.prepareState amplitudes).Follows (.error (.shape fault)) [] := by
  rw [prepareState]
  dsimp only
  split
  case isTrue => exact ⟨_, (Synthesis.follows_throw _).bind_error⟩
  case isFalse hlength =>
    obtain ⟨k, -, hlen⟩ := length_check_iff.1 hlength
    rw [hlen] at h
    rw [hlen, Nat.log2_two_pow, if_pos ((Nat.pow_lt_pow_iff_right Nat.one_lt_two).1 h)]
    exact ⟨_, (Synthesis.follows_throw _).bind_error⟩

/-- Preparing refuses a state before a table is looked up, overflows or returns a covered program. -/
theorem prepareState_answers (c : Compiler R) (amplitudes : List (Amplitude R)) :
    (c.prepareState amplitudes).Answers Program.Covered := by
  by_cases h : ∃ k, c.AcceptsState amplitudes k
  case pos =>
    obtain ⟨k, hk⟩ := h
    exact .inr ((prepareState_yields hk).imp fun _ _ hp => hp.2)
  case neg => exact .inl (prepareState_refused (not_exists.1 h))

end States

section Diagonals

variable {diagonal : List (Amplitude R)} {k : ℕ}

/-- The checks that a diagonal of `k` qubits has to pass. -/
structure AcceptsDiagonal (c : Compiler R) (diagonal : List (Amplitude R)) (k : ℕ) : Prop where
  length_eq : diagonal.length = 2 ^ k
  pos : 0 < k
  modulus_close : (diagonal.map fun z => Scalar.abs (z.norm - 1)).foldl Scalar.maximum 0 < c.settings.unitarityTolerance

/-- A diagonal whose entries have modulus one passes, however wide it is. -/
lemma acceptsDiagonal_of_unit {c : Compiler ℝ} (htolerance : 0 < c.settings.unitarityTolerance) {d : List (Amplitude ℝ)}
    (hlen : d.length = 2 ^ k) (hk : 0 < k) (hunit : ∀ z ∈ d, ‖z.toComplex‖ = 1) : c.AcceptsDiagonal d k := by
  have hmap : (d.map fun z => Scalar.abs (z.norm - 1)) = List.replicate d.length 0 := by
    refine List.eq_replicate_iff.2 ⟨List.length_map _, fun x hx => ?_⟩
    obtain ⟨z, hz, rfl⟩ := List.mem_map.1 hx
    rw [Amplitude.norm_eq, hunit z hz, sub_self]
    exact abs_zero
  have hfold (n : ℕ) : (List.replicate n (0 : ℝ)).foldl Scalar.maximum 0 = 0 := by
    induction n with
    | zero => rfl
    | succ n ih => rw [List.replicate_succ, List.foldl_cons, Scalar.maximum, ite_self, ih]
  refine ⟨hlen, hk, ?_⟩
  rw [hmap, hfold]
  exact htolerance

/-- An accepted diagonal is handed to the synthesis. -/
lemma compileDiagonal_eq (h : c.AcceptsDiagonal diagonal k) : c.compileDiagonal diagonal = do
    let (gates, phase) ← synthesizeDiagonal diagonal 0 c.settings.rotationCutoff
    return ⟨k, gates, phase, .diagonal⟩ := by
  have hlog : diagonal.length.log2 = k := h.length_eq ▸ Nat.log2_two_pow
  rw [compileDiagonal]
  dsimp only
  rw [if_neg (length_check_iff.2 ⟨k, h.pos, h.length_eq⟩), hlog, if_pos h.modulus_close]

/-- An accepted diagonal is compiled, unless a number overflows. -/
theorem compileDiagonal_yields (h : c.AcceptsDiagonal diagonal k) :
    (c.compileDiagonal diagonal).Yields fun p ws => p.width = k ∧ p.Covered ws := by
  rw [compileDiagonal_eq h]
  refine (synthesizeDiagonal_yields h.length_eq (Nat.zero_add k)).bind fun out ws hout => ?_
  rw [← List.append_nil ws] at hout
  exact Synthesis.yields_pure ⟨rfl, hout.placed, hout.widths⟩

/-- A diagonal that fails a check is refused before a table is looked up. -/
theorem compileDiagonal_refused (h : ∀ k, ¬ c.AcceptsDiagonal diagonal k) :
    ∃ e, (c.compileDiagonal diagonal).Follows (.error e) [] := by
  rw [compileDiagonal]
  dsimp only
  split
  case isTrue => exact ⟨_, (Synthesis.follows_throw _).bind_error⟩
  case isFalse hlength =>
    obtain ⟨k, hk, hlen⟩ := length_check_iff.1 hlength
    split
    case isTrue hmodulus => exact absurd ⟨hlen, hk, hmodulus⟩ (h k)
    case isFalse => exact ⟨_, Synthesis.follows_throw _⟩

/-- Compiling refuses a diagonal before a table is looked up, overflows or returns a covered program. -/
theorem compileDiagonal_answers (c : Compiler R) (diagonal : List (Amplitude R)) :
    (c.compileDiagonal diagonal).Answers Program.Covered := by
  by_cases h : ∃ k, c.AcceptsDiagonal diagonal k
  case pos =>
    obtain ⟨k, hk⟩ := h
    exact .inr ((compileDiagonal_yields hk).imp fun _ _ hp => hp.2)
  case neg => exact .inl (compileDiagonal_refused (not_exists.1 h))

end Diagonals

end Compiler

end CircuitSynthesis
