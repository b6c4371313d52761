import Mathlib
import CircuitSynthesis.Proofs.Acceptance
import CircuitSynthesis.Proofs.Circuit.Programs
import CircuitSynthesis.Proofs.CommandLine.Execution
import CircuitSynthesis.Proofs.CommandLine.Files
import CircuitSynthesis.Proofs.Peeling
import CircuitSynthesis.Proofs.Settings
import CircuitSynthesis.Proofs.Statevector.Alignment
import CircuitSynthesis.TwoQubit.StandardKernel

/-!
# Verified programs

Verifying an operator succeeds if and only if a file holds it, the settings are valid and accept it, it has a program, and the
operator of the program is the operator up to a phase, within the tolerance (`verify_spec`). This does not rest on what the
compiler does: the gates of the program are multiplied out from the basis states, and the phase at which the two operators are
compared is the best one.
-/

namespace CircuitSynthesis

open Matrix
open scoped Matrix.Norms.Frobenius

namespace Compiler

variable {c : Compiler ℝ} {n : ℕ} {U : Dense (Amplitude ℝ) (2 ^ n) (2 ^ n)} {p : Program ℝ}

/-- An operator passes the checks if it has a qubit, not too many, and is unitary within tolerance. -/
lemma validate_eq_ok_iff : c.validate U n = .ok U ↔
    0 < n ∧ n ≤ c.settings.maxQubits.toNat ∧ ‖U.toMatrix * U.toMatrixᴴ - 1‖ < c.settings.unitarityTolerance := by
  have hdeviation : U.unitarityDeviation = ‖U.toMatrix * U.toMatrixᴴ - 1‖ := by
    rw [Dense.unitarityDeviation, Dense.norm_eq, Dense.toMatrix_sub, Dense.toMatrix_scale, Dense.toMatrix_dot,
      Dense.toMatrix_dagger, Dense.toMatrix_identity, Amplitude.toComplex_one, one_smul]
  rw [validate, guard_bind_eq_ok_iff, guard_bind_eq_ok_iff, guard_bind_eq_ok_iff, dif_pos ⟨rfl, rfl⟩, Dense.cast_rfl]
  dsimp only
  rw [hdeviation, and_iff_right (not_not.2 rfl), Nat.pos_iff_ne_zero, not_lt]
  refine and_congr_right' (and_congr_right' ?_)
  split
  case isTrue h => exact iff_of_true rfl h
  case isFalse h =>
    refine iff_of_false (fun hok => ?_) h
    cases hok

/-- An operator that has a program passed the checks, and the program is placed on its qubits. -/
lemma compile_eq_ok (h : CommandLine.runSynthesis (c.compile U n) = .ok p) :
    c.validate U n = .ok U ∧ p.width = n ∧ p.IsPlaced := by
  have hresult {r ws} (hrun : (c.compile U n).Follows r ws) : r = .ok p :=
    (congrArg Prod.fst (hrun .empty SignTableCache.sound_empty)).symm.trans h
  cases hvalid : c.validate U n with
  | error e => cases hresult (compile_refused hvalid)
  | ok u =>
    obtain rfl := eq_of_validate_eq_ok hvalid
    obtain ⟨r, ws, hrun, hr, -⟩ := compile_of_accepted hvalid
    obtain rfl := hresult hrun
    exact ⟨rfl, hr.1, hr.2.1⟩

/-- Once the gates of an accepted operator are found, so is its program. -/
lemma compile_gives {out : List (ElementaryGate ℝ) × ℝ} (hvalid : c.validate U n = .ok U)
    (h : (c.compileAs U (c.classOf U)).Gives (.ok out)) :
    (c.compile U n).Gives (.ok ⟨n, out.1, out.2, (c.classOf U).strategy⟩) :=
  (Synthesis.gives_lift hvalid).bind (h.bind (Synthesis.gives_pure _))

end Compiler

namespace CommandLine

open Execution

section Runs

variable [DecimalText ℝ] {s : Surroundings ℝ} {input : String} {config : Option String}

/-- The operator that a command reads is the one that the file holds. -/
lemma finds_readOperator (s : Surroundings ℝ) (input : String) : Finds (readOperator s input) fun x =>
    ∃ (n : ℕ) (M : Matrix (Fin (2 ^ n)) (Fin (2 ^ n)) ℂ), s.files.HoldsOperator input M ∧ x = ⟨2 ^ n, .ofMatrix M⟩ := by
  have hchain : Finds (readOperator s input) fun x =>
      ∃ text, s.files.read input = .ok text ∧ ∃ rows, rowsOfText? text = some rows ∧
        ∃ u, operatorOfRows rows = .ok u ∧ ⟨rows.length, u⟩ = x :=
    (finds_require _ _).bind fun text => (finds_demand _ _).bind fun rows => (finds_require _ _).bind fun u => finds_pure _
  refine hchain.imp fun x => ?_
  simp only [eq_comm (b := x), exists_operatorOfRows_iff]
  constructor
  · rintro ⟨text, htext, rows, hrows, n, M, rfl, rfl⟩
    exact ⟨n, M, ⟨text, htext, hrows⟩, rfl⟩
  · rintro ⟨n, M, ⟨text, htext, hrows⟩, rfl⟩
    exact ⟨text, htext, _, hrows, n, M, rfl, rfl⟩

/-- Whether an operator is held by a file and compiled under the settings of a run. -/
structure Compiles (s : Surroundings ℝ) (input : String) (config : Option String) {n : ℕ}
    (M : Matrix (Fin (2 ^ n)) (Fin (2 ^ n)) ℂ) (settings : Settings ℝ) (p : Program ℝ) : Prop where
  holds : s.files.HoldsOperator input M
  /-- The settings are those of the file with settings, under the environment. -/
  loads : Settings.load ((settingsFile s config).map fun path => (path, (s.files.read path).mapError FileFault.message))
    s.environment = .ok settings
  valid : settings.check = .ok ()
  pos : 0 < n
  le_maxQubits : n ≤ settings.maxQubits.toNat
  unitary : ‖M * Mᴴ - 1‖ < settings.unitarityTolerance
  compiles : runSynthesis ((⟨settings, s.kernel⟩ : Compiler ℝ).compile (.ofMatrix M) n) = .ok p
  width_eq : p.width = n

variable {n : ℕ} {M : Matrix (Fin (2 ^ n)) (Fin (2 ^ n)) ℂ} {settings : Settings ℝ} {p : Program ℝ}

omit [DecimalText ℝ] in
/-- A program is rebuilt and compared successfully if and only if it is placed and its operator agrees with the given one. -/
lemma comparison_iff {tolerance : ℝ} {name : String} (hp : p.width = n) (hn : n ≤ maxDenseQubits) :
    (∃ c, p.toCircuit name = .ok c ∧ ∃ U, c.operator = .ok U ∧ ∃ error, phaseAlignedError (.ofMatrix M) U = .ok error ∧
      ¬ tolerance < error) ↔ p.IsPlaced ∧ AgreesUpToPhase tolerance M (phasedOperator n (p.gates, p.phase)) := by
  subst hp
  rw [← Program.operator_eq_phasedOperator]
  constructor
  · rintro ⟨c, hc, U, hU, error, herror, hle⟩
    obtain ⟨hplaced, rfl⟩ := Program.toCircuit_eq_ok_iff.1 hc
    obtain ⟨V, hV, hoperator⟩ := Program.operator_circuit hplaced hn name
    obtain rfl : U = V := Except.ok.inj (hU.symm.trans hV)
    obtain ⟨error', herror', hiff⟩ := phaseAlignedError_le_iff (.ofMatrix M) U
    obtain rfl : error = error' := Except.ok.inj (herror.symm.trans herror')
    rw [Dense.toMatrix_ofMatrix, hoperator] at hiff
    exact ⟨hplaced, hiff.1 (not_lt.1 hle)⟩
  · rintro ⟨hplaced, hagree⟩
    obtain ⟨U, hU, hoperator⟩ := Program.operator_circuit hplaced hn name
    obtain ⟨error, herror, hiff⟩ := phaseAlignedError_le_iff (.ofMatrix M) U
    rw [Dense.toMatrix_ofMatrix, hoperator] at hiff
    exact ⟨_, Program.toCircuit_eq_ok_iff.2 ⟨hplaced, rfl⟩, U, hU, error, herror, not_lt.2 (hiff.2 hagree)⟩

/-- Verifying an operator needs a program that is compared successfully. -/
lemma returns_verifyFile_iff {console : Console} : (∃ console', Returns (verifyFile s input config) console () console') ↔
    ∃ (n : ℕ) (M : Matrix (Fin (2 ^ n)) (Fin (2 ^ n)) ℂ) (settings : Settings ℝ) (p : Program ℝ),
      Compiles s input config M settings p ∧ n ≤ maxDenseQubits ∧
        AgreesUpToPhase settings.verifyTolerance M (phasedOperator n (p.gates, p.phase)) := by
  simp only [verifyFile, returns_note_bind_iff, returns_print_bind_iff, returns_guard_bind_iff,
    (finds_readOperator s input).bind_iff, loadSettings, (finds_require _ _).bind_iff]
  constructor
  · rintro ⟨-, _, ⟨n, M, hM, rfl⟩, hwidth, settings, hload, c, hmake, p, hp, circuit, hcircuit, U, hU, error, herror, hle, -⟩
    dsimp only at hwidth hp
    rw [Nat.log2_two_pow] at hwidth hp
    obtain ⟨hcheck, rfl⟩ := Compiler.make_eq_ok_iff.1 hmake
    obtain ⟨hvalid, hpwidth, -⟩ := Compiler.compile_eq_ok hp
    obtain ⟨hpos, hmax, hunitary⟩ := Compiler.validate_eq_ok_iff.1 hvalid
    rw [Dense.toMatrix_ofMatrix] at hunitary
    have hagree := (comparison_iff hpwidth (not_lt.1 hwidth)).1 ⟨circuit, hcircuit, U, hU, error, herror, hle⟩
    exact ⟨n, M, settings, p, ⟨hM, hload, hcheck, hpos, hmax, hunitary, hp, hpwidth⟩, not_lt.1 hwidth, hagree.2⟩
  · rintro ⟨n, M, settings, p, h, hwidth, hagree⟩
    obtain ⟨-, -, hplaced⟩ := Compiler.compile_eq_ok h.compiles
    obtain ⟨circuit, hcircuit, U, hU, error, herror, hle⟩ := (comparison_iff h.width_eq hwidth).2 ⟨hplaced, hagree⟩
    have hlog : (2 ^ n).log2 = n := Nat.log2_two_pow
    refine ⟨_, _, ⟨n, M, h.holds, rfl⟩, ?_, settings, h.loads, ⟨settings, s.kernel⟩,
      Compiler.make_eq_ok_iff.2 ⟨h.valid, rfl⟩, p, ?_, circuit, hcircuit, U, hU, error, herror, hle, rfl⟩
    · dsimp only
      rw [hlog]
      exact not_lt.2 hwidth
    · dsimp only
      rw [hlog]
      exact h.compiles

/-- The operator, the settings and the program of a run are determined by it. -/
lemma Compiles.unique {n' : ℕ} {M' : Matrix (Fin (2 ^ n')) (Fin (2 ^ n')) ℂ} {settings' : Settings ℝ} {p' : Program ℝ}
    (h : Compiles s input config M settings p) (h' : Compiles s input config M' settings' p') :
    (⟨n, M⟩ : (n : ℕ) × Matrix (Fin (2 ^ n)) (Fin (2 ^ n)) ℂ) = ⟨n', M'⟩ ∧ settings = settings' ∧ p = p' := by
  obtain ⟨text, htext, hrows⟩ := h.holds
  obtain ⟨text', htext', hrows'⟩ := h'.holds
  obtain rfl : text = text' := Except.ok.inj (htext.symm.trans htext')
  obtain rfl : settings = settings' := Except.ok.inj (h.loads.symm.trans h'.loads)
  have hM := eq_of_rowsOfOperator_eq (Option.some.inj (hrows.symm.trans hrows'))
  cases hM
  exact ⟨rfl, rfl, Except.ok.inj (h.compiles.symm.trans h'.compiles)⟩

/-- A run that verifies an operator exits with zero if and only if a file holds an operator on one to twelve qubits, the
settings are valid and accept it, and the program that is compiled from it agrees with it up to a phase. If the program does
not agree, the run exits with one. -/
theorem verify_spec (s : Surroundings ℝ) (input : String) (config : Option String) :
    (((Command.verify input config).run s).exit = 0 ↔
      ∃ (n : ℕ) (M : Matrix (Fin (2 ^ n)) (Fin (2 ^ n)) ℂ) (settings : Settings ℝ) (p : Program ℝ),
        Compiles s input config M settings p ∧ n ≤ 12 ∧
          AgreesUpToPhase settings.verifyTolerance M (phasedOperator n (p.gates, p.phase))) ∧
    ∀ (n : ℕ) (M : Matrix (Fin (2 ^ n)) (Fin (2 ^ n)) ℂ) (settings : Settings ℝ) (p : Program ℝ),
      Compiles s input config M settings p →
      ¬ AgreesUpToPhase settings.verifyTolerance M (phasedOperator n (p.gates, p.phase)) →
      ((Command.verify input config).run s).exit = 1 := by
  have hzero : ((Command.verify input config).run s).exit = 0 ↔ _ := exit_eq_zero_iff.trans returns_verifyFile_iff
  refine ⟨hzero, fun n M settings p h hnot => exit_eq_one_of_ne_zero fun hexit => hnot ?_⟩
  obtain ⟨n', M', settings', p', h', -, hagree⟩ := hzero.1 hexit
  obtain ⟨hM, rfl, rfl⟩ := h.unique h'
  cases hM
  exact hagree

end Runs

section Example

/-- Decimals are read exactly; nothing is written. -/
noncomputable local instance exactText : DecimalText ℝ where
  ofDecimal negative m e := (if negative then -1 else 1) * (m * 10 ^ e)
  plain _ := ""
  exponential _ := ""
  compact _ := ""
  fixed _ _ := ""
  scientific _ _ := ""

/-- A multiple of the identity on two qubits. -/
noncomputable def scaledIdentity (k : ℕ) : Matrix (Fin (2 ^ 2)) (Fin (2 ^ 2)) ℂ := (k : ℂ) • 1

/-- The identity as a file. -/
def identityText : String :=
  "\x7b\"rows\":[[[1,0],[0,0],[0,0],[0,0]],[[0,0],[1,0],[0,0],[0,0]],[[0,0],[0,0],[1,0],[0,0]],[[0,0],[0,0],[0,0],[1,0]]]\x7d"

/-- Twice the identity as a file. -/
def doubledText : String :=
  "\x7b\"rows\":[[[2,0],[0,0],[0,0],[0,0]],[[0,0],[2,0],[0,0],[0,0]],[[0,0],[0,0],[2,0],[0,0]],[[0,0],[0,0],[0,0],[2,0]]]\x7d"

/-- The rows of such a file. -/
def scaledRows {R : Type} (k : ℤ) : Json R :=
  .array ([[k, 0, 0, 0], [0, k, 0, 0], [0, 0, k, 0], [0, 0, 0, k]].map fun row =>
    .array (row.map fun x => .array [.int x, .int 0]))

/-- Both files, and an environment in which the tolerance is large enough to accept them. -/
noncomputable def scaledFiles : Surroundings ℝ where
  files := ⟨fun path => .ok (if path = "identity.json" then identityText else doubledText), fun _ => none⟩
  environment name := if name = "QSYNTH_UNITARITY_TOLERANCE" then some "10" else none
  kernel := .standard

/-- The settings under that environment. -/
noncomputable def tolerant : Settings ℝ := { Settings.standard with unitarityTolerance := 10 }

section Reading

variable {R : Type} [Scalar R] [DecimalText R]

/-- The first file holds the identity. -/
lemma fieldOf?_identityText : (fieldOf? "rows" identityText : Option (Json R)) = some (scaledRows 1) := by cbv

/-- The second file holds twice the identity. -/
lemma fieldOf?_doubledText : (fieldOf? "rows" doubledText : Option (Json R)) = some (scaledRows 2) := by cbv

/-- A variable that is set replaces the tolerance of the standard settings and nothing else. -/
lemma mergeEnvironment_tolerance : (Settings.standard : Settings R).mergeEnvironment
    (fun name => if name = "QSYNTH_UNITARITY_TOLERANCE" then some "10" else none) =
      { Settings.standard with unitarityTolerance := DecimalText.ofDecimal false 10 0 } := by cbv

end Reading

variable {k : ℕ}

/-- Rows of a multiple of the identity are read as its operator. -/
lemma rowsOfOperator_scaledIdentity :
    (scaledRows k : Json ℝ).list? (Json.list? Amplitude.ofJson?) = some (rowsOfOperator (scaledIdentity k)) := by
  have hread (x : ℕ) : (DecimalText.ofInt (x : ℤ) : ℝ) = x := by simp [DecimalText.ofInt, DecimalText.ofDecimal]
  have hentry (x : ℕ) : (⟨DecimalText.ofInt x, DecimalText.ofInt 0⟩ : Amplitude ℝ) = .ofComplex x := by
    rw [hread, ← Nat.cast_zero, hread]
    simp [Amplitude.ofComplex]
  have hzero : (⟨DecimalText.ofInt 0, DecimalText.ofInt 0⟩ : Amplitude ℝ) = .ofComplex 0 := by
    simpa using hentry 0
  have hrows (M : Matrix (Fin 4) (Fin 4) ℂ) : rowsOfOperator (n := 2) M = [0, 1, 2, 3].map fun i =>
    [.ofComplex (M i 0), .ofComplex (M i 1), .ofComplex (M i 2), .ofComplex (M i 3)] := rfl
  rw [hrows]
  simp [scaledRows, scaledIdentity, Json.list?, Amplitude.ofJson?, Json.scalar?, hentry, hzero]

/-- The settings with a tolerance of ten pass. -/
lemma check_tolerant : tolerant.check = .ok () := by
  have hstandard := Settings.check_standard (by decide : ¬ ((12 : UInt32) = 0 ∨ 16 < (12 : UInt32)))
  rw [Settings.check_eq_ok_iff] at hstandard ⊢
  exact ⟨Settings.isPositive_real.2 (by norm_num [tolerant]), hstandard.2⟩

/-- They are what the settings file and the environment of the example come to. -/
lemma load_tolerant : Settings.load ((settingsFile scaledFiles none).map fun path =>
    (path, (scaledFiles.files.read path).mapError FileFault.message)) scaledFiles.environment = .ok tolerant := by
  have hmerge : (Settings.standard : Settings ℝ).mergeEnvironment scaledFiles.environment = tolerant := by
    refine mergeEnvironment_tolerance.trans ?_
    simp [tolerant, DecimalText.ofDecimal]
  have hnone : settingsFile scaledFiles none = none := by
    simp [settingsFile, scaledFiles]
  rw [hnone]
  exact check_bind_eq_ok_iff.2 ⟨hmerge ▸ check_tolerant, congrArg Except.ok hmerge⟩

/-- On two wires the Frobenius norm of the identity is two. -/
lemma norm_smul_identity (z : ℂ) : ‖z • (1 : Matrix (Fin (2 ^ 2)) (Fin (2 ^ 2)) ℂ)‖ = 2 * ‖z‖ := by
  rw [frobenius_norm_smul_one, Nat.cast_pow, Nat.cast_ofNat, Real.sqrt_sq zero_le_two]

/-- A diagonal operator is close to the identity if its entries are close to one. -/
lemma norm_diagonal_sub_one_le {f : Fin (2 ^ 2) → ℂ} {r : ℝ} (hf : ∀ i, ‖f i - 1‖ ≤ r) : ‖diagonal f - 1‖ ≤ 2 * r := by
  have hr : 0 ≤ r := (norm_nonneg _).trans (hf 0)
  have hentry (i : Fin (2 ^ 2)) : Complex.normSq (f i - 1) ≤ r ^ 2 := by
    rw [Complex.normSq_eq_norm_sq]
    exact pow_le_pow_left₀ (norm_nonneg _) (hf i) 2
  refine le_of_sq_le_sq ?_ (by positivity)
  calc ‖diagonal f - 1‖ ^ 2 = ∑ i, Complex.normSq (f i - 1) := by
        rw [frobenius_norm_sq, ← diagonal_one, diagonal_sub]
        simp [diagonal_apply, apply_ite]
    _ ≤ ∑ _i : Fin (2 ^ 2), r ^ 2 := Finset.sum_le_sum fun i _ => hentry i
    _ = (2 * r) ^ 2 := by
        rw [Finset.sum_const, Finset.card_univ, Fintype.card_fin, nsmul_eq_mul]
        push_cast
        ring

/-- The environment lets the multiples up to two pass. -/
lemma validate_scaledIdentity (hk : k ≤ 2) : (⟨tolerant, .standard⟩ : Compiler ℝ).validate (.ofMatrix (scaledIdentity k)) 2 =
    .ok (.ofMatrix (scaledIdentity k)) := by
  have hdeviation : scaledIdentity k * (scaledIdentity k)ᴴ - 1 = ((k : ℂ) ^ 2 - 1) • 1 := by
    rw [scaledIdentity, conjTranspose_smul, conjTranspose_one, Matrix.smul_mul, Matrix.one_mul, smul_smul, sub_smul, one_smul]
    simp [sq]
  refine Compiler.validate_eq_ok_iff.2 ⟨by decide, by decide, ?_⟩
  rw [Dense.toMatrix_ofMatrix, hdeviation, norm_smul_identity]
  change _ < (10 : ℝ)
  interval_cases k <;> norm_num

/-- A multiple of the identity loses its factor: its program is close to the identity. -/
lemma compile_scaledIdentity (hpos : 0 < k) (hk : k ≤ 2) : ∃ p : Program ℝ,
    runSynthesis ((⟨tolerant, .standard⟩ : Compiler ℝ).compile (.ofMatrix (scaledIdentity k)) 2) = .ok p ∧
    ‖phasedOperator 2 (p.gates, p.phase) - 1‖ ≤ 1e-11 := by
  have hne : (k : ℂ) ≠ 0 := Nat.cast_ne_zero.2 hpos.ne'
  have hclass : (⟨tolerant, .standard⟩ : Compiler ℝ).classOf (.ofMatrix (scaledIdentity k) : Dense _ (2 ^ 2) _) = .diagonal := by
    have hdiag : (Dense.ofMatrix (scaledIdentity k)).toMatrix.IsDiag := by
      rw [Dense.toMatrix_ofMatrix]
      exact isDiag_smul_one _ _
    rw [Compiler.classOf, if_neg (by decide), Dense.maxOffDiagonal_eq_zero hdiag]
    exact if_pos (by norm_num [tolerant, Settings.standard])
  have hself (i : Fin (2 ^ 2)) : scaledIdentity k i i = k := by
    rw [scaledIdentity, Matrix.smul_apply, one_apply_eq, smul_eq_mul, mul_one]
  have hentry (z : Amplitude ℝ) (hz : z ∈ (Dense.ofMatrix (scaledIdentity k)).diagonal) : z.toComplex = k := by
    obtain ⟨x, hx, rfl⟩ := List.mem_iff_getElem.1 hz
    rw [Dense.getElem_diagonal, ← Dense.toMatrix_apply, Dense.toMatrix_ofMatrix, hself]
  have hmagnitude (z : Amplitude ℝ) (hz : z ∈ (Dense.ofMatrix (scaledIdentity k)).diagonal) :
      minMagnitude ≤ ‖z.toComplex‖ := by
    rw [hentry z hz, Complex.norm_natCast]
    exact minMagnitude_le_one.trans (by exact_mod_cast hpos)
  have hcutoff : 0 ≤ tolerant.rotationCutoff := by norm_num [tolerant, Settings.standard]
  obtain ⟨gates, phase, e, hgives, -, hop, hclose⟩ :=
    synthesizeDiagonal_gives (m := 2) _ (Dense.length_diagonal _) hmagnitude 0 hcutoff
  have hrun := Compiler.compile_gives (validate_scaledIdentity hk) (by rw [hclass]; exact hgives)
  obtain ⟨cache, hresult, -⟩ := hrun .empty SignTableCache.sound_empty
  refine ⟨_, congrArg Prod.fst hresult, ?_⟩
  dsimp only
  rw [phasedOperator_mk, hop 2 le_rfl]
  refine (norm_diagonal_sub_one_le fun i => ?_).trans (by norm_num : 2 * (3 * 1e-12 / 2 : ℝ) ≤ 1e-11)
  have hi : field 0 2 i < (Dense.ofMatrix (scaledIdentity k)).diagonal.length :=
    (Dense.length_diagonal _).symm ▸ field_lt 0 2 i
  have h := hclose _ hi
  rw [hentry _ (List.getElem_mem hi), Complex.norm_natCast, Complex.ofReal_natCast, div_self hne] at h
  refine h.trans (le_of_eq ?_)
  change (2 ^ 2 - 1) * (1e-12 : ℝ) / 2 = _
  norm_num

/-- Both operators are compiled. -/
lemma compiles_scaledIdentity (path : String) (hpos : 0 < k) (hk : k ≤ 2)
    (htext : (fieldOf? "rows" (if path = "identity.json" then identityText else doubledText) : Option (Json ℝ)) =
      some (scaledRows k)) :
    ∃ p : Program ℝ, Compiles scaledFiles path none (scaledIdentity k) tolerant p ∧
      ‖phasedOperator 2 (p.gates, p.phase) - 1‖ ≤ 1e-11 := by
  obtain ⟨p, hp, hclose⟩ := compile_scaledIdentity hpos hk
  obtain ⟨hvalid, hwidth, -⟩ := Compiler.compile_eq_ok hp
  obtain ⟨-, hmax, hunitary⟩ := Compiler.validate_eq_ok_iff.1 hvalid
  rw [Dense.toMatrix_ofMatrix] at hunitary
  have hrows : rowsOfText? (if path = "identity.json" then identityText else doubledText) =
      some (rowsOfOperator (scaledIdentity k)) := by
    rw [rowsOfText?, htext]
    exact rowsOfOperator_scaledIdentity
  exact ⟨p, ⟨⟨_, rfl, hrows⟩, load_tolerant, check_tolerant, Nat.two_pos, hmax, hunitary, hp, hwidth⟩, hclose⟩

/-- The double of a phase stays away from one. -/
lemma two_le_norm_smul_scaledIdentity_sub_one {z : ℂ} (hz : ‖z‖ = 1) : 2 ≤ ‖z • scaledIdentity 2 - 1‖ := by
  have hscalar : z • scaledIdentity 2 - 1 = (z * (2 : ℕ) - 1) • 1 := by
    rw [scaledIdentity, smul_smul, sub_smul, one_smul]
  have hlower := norm_sub_norm_le (z * (2 : ℕ)) 1
  rw [norm_mul, hz, one_mul, Complex.norm_natCast, norm_one] at hlower
  rw [hscalar, norm_smul_identity]
  norm_num at hlower ⊢
  linarith

/-- The identity is verified. Its double is accepted, but the program is not its double, and the run fails. -/
theorem verify_spec_scaledIdentity :
    ((Command.verify "identity.json" none).run scaledFiles).exit = 0 ∧
    ((Command.verify "doubled.json" none).run scaledFiles).exit = 1 := by
  have htolerance : tolerant.verifyTolerance = 1e-6 := rfl
  have hne (k : ℕ) (hk : k ≠ 0) : scaledIdentity k ≠ 0 := smul_ne_zero (Nat.cast_ne_zero.2 hk) one_ne_zero
  have hnorm (k : ℕ) : ‖scaledIdentity k‖ = 2 * k := (norm_smul_identity k).trans (by rw [Complex.norm_natCast])
  constructor
  · obtain ⟨p, hp, hclose⟩ := compiles_scaledIdentity "identity.json" Nat.one_pos (by decide) fieldOf?_identityText
    refine (verify_spec scaledFiles "identity.json" none).1.2
      ⟨2, scaledIdentity 1, tolerant, p, hp, by decide, fun hzero => absurd hzero (hne 1 one_ne_zero), fun _ => ⟨0, ?_⟩⟩
    rw [Complex.ofReal_zero, zero_mul, Complex.exp_zero, one_smul, norm_sub_rev, htolerance, hnorm]
    rw [scaledIdentity, Nat.cast_one, one_smul]
    refine hclose.trans ?_
    norm_num
  · obtain ⟨p, hp, hclose⟩ := compiles_scaledIdentity "doubled.json" Nat.two_pos le_rfl fieldOf?_doubledText
    refine (verify_spec scaledFiles "doubled.json" none).2 2 (scaledIdentity 2) tolerant p hp fun hagree => ?_
    obtain ⟨t, ht⟩ := hagree.2 (hne 2 two_ne_zero)
    rw [htolerance, hnorm] at ht
    have hfar := two_le_norm_smul_scaledIdentity_sub_one (Complex.norm_exp_ofReal_mul_I t)
    have hnear := (norm_sub_le_norm_sub_add_norm_sub _ _ _).trans (add_le_add ht hclose)
    exact (hfar.trans hnear).not_gt (by norm_num)

end Example

end CommandLine

end CircuitSynthesis
