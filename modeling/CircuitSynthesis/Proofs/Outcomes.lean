import Mathlib
import CircuitSynthesis.Proofs.Diagonal
import CircuitSynthesis.Proofs.Householder.Steps
import CircuitSynthesis.Proofs.Lookups
import CircuitSynthesis.Proofs.Placement
import CircuitSynthesis.Proofs.Exact.Dense

/-!
# What the syntheses return, whatever the arithmetic

Nothing is assumed of the numbers here: a comparison may fail either way and a function may return anything. Still every
synthesis of a well-formed input either overflows or returns placed gates, and the tables that it looks up are known. The
lengths of the lists carry this from level to level and from frame to frame.
-/

namespace CircuitSynthesis

variable {R : Type}

/-- No width lies between one and zero. -/
lemma mem_nil_iff_le (w : ℕ) : w ∈ ([] : List ℕ) ↔ 1 ≤ w ∧ w ≤ 0 := by
  rw [iff_false_left List.not_mem_nil]
  omega

/-- Gates placed below `hi`, for which the tables of the widths from one to `m` were looked up. -/
structure Covers (hi m : ℕ) (out : List (ElementaryGate R) × R) (ws : List ℕ) : Prop where
  placed : ∀ g ∈ out.1, g.IsPlaced hi
  widths : ∀ w, w ∈ ws ↔ 1 ≤ w ∧ w ≤ m

/-- Gates placed below `hi`, for which only tables of the widths from one to `hi` were looked up. -/
structure StaysWithin (hi : ℕ) (gates : List (ElementaryGate R)) (ws : List ℕ) : Prop where
  placed : ∀ g ∈ gates, g.IsPlaced hi
  widths : ∀ w ∈ ws, 1 ≤ w ∧ w ≤ hi

/-- Gates that cover the lowest wires stay within any larger number of them. -/
lemma Covers.staysWithin {m hi : ℕ} {out : List (ElementaryGate R) × R} {ws : List ℕ} (h : Covers m m out ws)
    (hm : m ≤ hi) : StaysWithin hi out.1 ws :=
  ⟨fun g hg => (h.placed g hg).mono hm, fun w hw => ((h.widths w).1 hw).imp_right fun h => h.trans hm⟩

/-- Whether a strategy looks up sign tables. -/
def Strategy.usesTables : Strategy → Bool
  | diagonal | general | statePreparation => true
  | singleQubit | twoQubit => false

/-- The largest width of a table that a program was made with, zero if there was none. -/
def Program.span (p : Program R) : ℕ := if p.strategy.usesTables then p.width else 0

/-- A placed program, for which the tables of the widths from one to its span were looked up. -/
def Program.Covered (p : Program R) (ws : List ℕ) : Prop := p.IsPlaced ∧ ∀ w, w ∈ ws ↔ 1 ≤ w ∧ w ≤ p.span

variable [Scalar R]

section Rotations

/-- Solving for as many angles as there are steps can only overflow. -/
lemma SignTable.settles_solve {width : ℕ} (table : SignTable R width) {alpha : List R}
    (hlen : alpha.length = 2 ^ (width - 1)) : Settles (fun _ => True) (table.solve alpha) := by
  rw [solve, dif_pos hlen]
  dsimp only
  split
  case isTrue => trivial
  case isFalse => split <;> trivial

/-- A ladder stays on its target and the wires of its controls. -/
lemma isPlaced_rotationLadder {axis : Axis} {target k : ℕ} {cutoff : R} (angles : List R) (controls : List ℕ)
    (h : ∀ c ∈ controls, c < k) : ∀ g ∈ rotationLadder axis target cutoff angles controls, g.IsPlaced (target + k + 1) := by
  intro g hg
  rcases eq_of_mem_rotationLadder angles controls hg with ⟨angle, rfl⟩ | ⟨control, hcontrol, rfl⟩
  · rw [ElementaryGate.isPlaced_rotation]
    omega
  · have hlt := h control hcontrol
    rw [ElementaryGate.isPlaced_entangler]
    omega

/-- A multiplexed rotation stays on its target and the wires that select the angle. -/
theorem settles_multiplexedRotation (axis : Axis) {k : ℕ} {angles : List R} (hlen : angles.length = 2 ^ k) (target : ℕ)
    (cutoff : R) :
    Settles (fun gates => ∀ g ∈ gates, g.IsPlaced (target + k + 1))
      (multiplexedRotation axis angles target (SignTable.build (k + 1)) cutoff) := by
  rw [multiplexedRotation]
  refine (SignTable.settles_solve _ hlen).bind fun theta _ => ?_
  dsimp only
  split
  case h_1 => exact List.forall_mem_nil _
  case h_2 first rest _ =>
    split
    case isTrue => exact isPlaced_rotationLadder _ _ fun c => lt_of_mem_controlLadder
    case isFalse =>
      split
      case isTrue =>
        intro g hg
        rw [List.mem_singleton.1 hg, ElementaryGate.isPlaced_rotation]
        omega
      case isFalse => exact List.forall_mem_nil _

end Rotations

section Levels

variable {cutoff : R}

/-- The levels of a diagonal look up the tables of their widths, from the largest down, and are placed. -/
theorem diagonalLevels_yields (wires : ℕ) (d : List (Amplitude R)) (hlen : d.length = 2 ^ wires) (target : ℕ) :
    (diagonalLevels cutoff wires d target).Yields (Covers (target + wires) wires) := by
  induction wires generalizing d target with
  | zero => exact Synthesis.yields_pure ⟨List.forall_mem_nil _, mem_nil_iff_le⟩
  | succ wires ih =>
    have hhalf := half_length hlen
    have hangles : (pairPhases d).length = 2 ^ wires := (length_pairPhases d).trans hhalf
    rw [diagonalLevels]
    refine (Synthesis.yields_table (wires + 1)).bind ?_
    rintro _ _ ⟨rfl, rfl⟩
    refine (Synthesis.yields_lift (settles_multiplexedRotation .z hangles target cutoff)).bind ?_
    rintro level _ ⟨hlevel, rfl⟩
    refine (ih _ ?_ (target + 1)).bind ?_
    · rw [List.length_zipWith, length_pairs, hangles, hhalf, min_self]
    · rintro ⟨rest, phase⟩ ws ⟨hrest, hws⟩
      refine Synthesis.yields_pure ⟨fun g hg => ?_, fun w => ?_⟩
      · rcases List.mem_append.1 hg with hleft | hright
        · exact hlevel g hleft
        · exact (hrest g hright).mono (by omega)
      · simp only [List.mem_append, List.mem_singleton, List.not_mem_nil, false_or, or_false, hws]
        omega

/-- Normalizing keeps the number of phases or overflows. -/
lemma settles_normalizePhases (d : List (Amplitude R)) (index : ℕ) :
    Settles (fun phases => phases.length = d.length) (normalizePhases d index) := by
  induction d generalizing index with
  | nil => rfl
  | cons z d ih =>
    rw [normalizePhases]
    dsimp only
    split
    case isTrue => trivial
    case isFalse =>
      refine (ih (index + 1)).bind fun phases hlen => ?_
      exact congrArg (· + 1) hlen

/-- The synthesis of a diagonal of `2^m` entries. -/
theorem synthesizeDiagonal_yields {m lo hi : ℕ} {d : List (Amplitude R)} (hlen : d.length = 2 ^ m) (hhi : lo + m = hi) :
    (synthesizeDiagonal d lo cutoff).Yields (Covers hi m) := by
  subst hhi
  rw [synthesizeDiagonal, hlen, if_pos (isPowerOfTwo_two_pow m), Nat.log2_two_pow]
  refine (Synthesis.yields_lift (settles_normalizePhases d 0)).bind ?_
  rintro phases _ ⟨hphases, rfl⟩
  exact diagonalLevels_yields m phases (hphases.trans hlen) lo

/-- The levels of a state look up the tables of their widths and are placed. -/
theorem stateLevels_yields (wires : ℕ) (v : List (Amplitude R)) (hlen : v.length = 2 ^ wires) (target : ℕ) :
    (stateLevels cutoff wires v target).Yields (Covers (target + wires) wires) := by
  induction wires generalizing v target with
  | zero => exact Synthesis.yields_pure ⟨List.forall_mem_nil _, mem_nil_iff_le⟩
  | succ wires ih =>
    rw [stateLevels]
    refine (ih _ (length_map_pairs parentAmplitude hlen) (target + 1)).bind ?_
    rintro ⟨above, phase⟩ ws ⟨habove, hws⟩
    refine (Synthesis.yields_table (wires + 1)).bind ?_
    rintro _ _ ⟨rfl, rfl⟩
    refine (Synthesis.yields_lift (settles_multiplexedRotation .y (length_map_pairs splitAngle hlen) target cutoff)).bind ?_
    rintro split _ ⟨hsplit, rfl⟩
    refine (Synthesis.yields_lift (settles_multiplexedRotation .z (length_map_pairs phaseAngle hlen) target cutoff)).bind ?_
    rintro turn _ ⟨hturn, rfl⟩
    refine Synthesis.yields_pure ⟨fun g hg => ?_, fun w => ?_⟩
    · rcases List.mem_append.1 hg with hg | hg
      · rcases List.mem_append.1 hg with hg | hg
        · exact (habove g hg).mono (by omega)
        · exact hsplit g hg
      · exact hturn g hg
    · simp only [List.mem_append, List.mem_singleton, List.not_mem_nil, or_false, hws]
      omega

/-- The preparation of a state of `2^m` amplitudes. -/
theorem synthesizeState_yields {m lo hi : ℕ} {v : List (Amplitude R)} (hlen : v.length = 2 ^ m) (hhi : lo + m = hi) :
    (synthesizeState v lo cutoff).Yields (Covers hi m) := by
  subst hhi
  rw [synthesizeState, hlen, if_pos (isPowerOfTwo_two_pow m), Nat.log2_two_pow]
  split
  case h_1 => exact Synthesis.yields_throw trivial
  case h_2 => exact stateLevels_yields m v hlen lo

end Levels

namespace Householder.Reducer

variable {m n : ℕ}

/-- The check of a norm passes or overflows. -/
lemma settles_checkNorm (column : ℕ) (norm : R) : Settles (fun _ => True) (checkNorm column norm) := by
  rw [checkNorm]
  split <;> trivial

/-- The reduction of a column succeeds or overflows. -/
lemma settles_reduceColumn (work : Dense (Amplitude R) m n) (j : ℕ) (hm : j < m) (hn : j < n) :
    Settles (fun _ => True) (reduceColumn work j hm hn) := by
  rw [reduceColumn]
  refine (settles_checkNorm j _).bind fun _ _ => ?_
  dsimp only
  split
  case isTrue => trivial
  case isFalse => exact (settles_checkNorm j _).bind fun _ _ => trivial

/-- A step moves on to the next column, also if it overflows. -/
lemma step_settles {q : Reducer R m n} (hm : q.next < m) (hn : q.next < n) :
    ∃ r q', (step.run q).run = (r, q') ∧ q'.next = q.next + 1 ∧ Settles (fun _ => True) r := by
  have hcolumn := settles_reduceColumn q.work q.next hm hn
  cases hreduce : reduceColumn q.work q.next hm hn with
  | error e =>
    rw [hreduce] at hcolumn
    refine ⟨.error e, { q with next := q.next + 1 }, ?_, rfl, hcolumn⟩
    rw [step, run_get_bind, dif_pos ⟨hm, hn⟩, hreduce]
    rfl
  | ok result => exact ⟨.ok result.2, ⟨result.1, q.next + 1⟩, step_eq hm hn hreduce, rfl, trivial⟩

/-- As long as there are columns left, steps can only overflow, and each of them returns something. -/
theorem steps_settle (count : ℕ) {q : Reducer R m n} (hm : q.next + count ≤ m) (hn : q.next + count ≤ n) :
    Settles (fun reflectors => reflectors.length = count) ((steps count).run q).run.1 := by
  induction count generalizing q with
  | zero => rfl
  | succ count ih =>
    obtain ⟨r, q', hstep, hnext, hr⟩ := step_settles (q := q) (by omega) (by omega)
    rw [steps]
    cases r with
    | error e =>
      rw [run_bind_error hstep]
      exact hr
    | ok reflector =>
      have hrest : Settles (fun reflectors => reflectors.length = count) ((steps count).run q').run.1 :=
        ih (by omega) (by omega)
      rw [run_bind hstep]
      rcases hsteps : ((steps count).run q').run with ⟨r', q''⟩
      rw [hsteps] at hrest
      cases r' with
      | error e =>
        rw [run_bind_error hsteps]
        exact hrest
      | ok reflectors =>
        rw [run_bind hsteps]
        exact congrArg (· + 1) hrest

/-- Half of the columns of a block can be reduced. -/
lemma steps_half_settle_length {k : ℕ} (block : Dense (Amplitude R) (2 ^ (k + 1)) (2 ^ (k + 1))) :
    Settles (fun reflectors => reflectors.length = 2 ^ k) ((steps (2 ^ k)).run (ofDense block)).run.1 := by
  have hcount : 0 + 2 ^ k ≤ 2 ^ (k + 1) := by
    rw [Nat.zero_add]
    exact Nat.pow_le_pow_right Nat.two_pos (Nat.le_succ k)
  exact steps_settle (2 ^ k) hcount hcount

/-- The reduction of half the columns of a block succeeds or overflows, as there is a column for each step. -/
lemma steps_half_settle {k : ℕ} (block : Dense (Amplitude R) (2 ^ (k + 1)) (2 ^ (k + 1))) :
    Settles (fun _ => True) ((steps (2 ^ k)).run (ofDense block)).run.1 :=
  (steps_half_settle_length block).imp fun _ _ => trivial

omit [Scalar R] in
/-- The vectors of the reflectors have the dimension of the matrix. -/
lemma length_of_mem_vectors {reflectors : List (Option (Reflector R m))} {vector : List (Amplitude R)}
    (h : vector ∈ ((reflectors.filterMap id).map fun r => r.vector.toList).reverse) : vector.length = m := by
  obtain ⟨r, -, rfl⟩ := List.mem_map.1 (List.mem_reverse.1 h)
  exact r.vector.length_toList

end Householder.Reducer

namespace Compiler

variable {qubits : ℕ}

/-- A reflection, whose vector may be shorter than the register. -/
theorem emitReflection_yields (c : Compiler R) {m : ℕ} {vector : List (Amplitude R)} (hlen : vector.length = 2 ^ m)
    (hm : m ≤ qubits) (depth : ℕ) :
    (c.emitReflection vector depth qubits).Yields fun out ws => StaysWithin qubits out.1 ws := by
  rw [emitReflection]
  dsimp only
  -- the vector lies on the lowest `m` wires, the flip is on the whole register
  refine (synthesizeState_yields hlen (Nat.zero_add m)).bind ?_
  rintro ⟨prepare, turn⟩ ws hprepare
  have hprepare := hprepare.staysWithin hm
  refine (synthesizeDiagonal_yields (by simp) (Nat.zero_add qubits)).bind ?_
  rintro ⟨flip, phase⟩ ws' hflip
  have hflip := hflip.staysWithin le_rfl
  have hundo : ∀ g ∈ prepare.reverse.map ElementaryGate.inverse, g.IsPlaced qubits := by
    intro g hg
    obtain ⟨g', hg', rfl⟩ := List.mem_map.1 hg
    exact (hprepare.placed g' (List.mem_reverse.1 hg')).inverse
  refine Synthesis.yields_pure ⟨?_, ?_⟩
  · exact List.forall_mem_append.2 ⟨List.forall_mem_append.2 ⟨hundo, hflip.placed⟩, hprepare.placed⟩
  · rw [List.append_nil]
    exact List.forall_mem_append.2 ⟨hprepare.widths, hflip.widths⟩

/-- Reflections that are emitted in turn stay within the register. -/
theorem emitReflections_yields (c : Compiler R) {m : ℕ} (hm : m ≤ qubits) (depth : ℕ) {gates : List (ElementaryGate R)}
    (hgates : ∀ g ∈ gates, g.IsPlaced qubits) (phase : R) {vectors : List (List (Amplitude R))}
    (h : ∀ vector ∈ vectors, vector.length = 2 ^ m) :
    (c.emitReflections depth qubits gates phase vectors).Yields fun out ws => StaysWithin qubits out.1 ws := by
  induction vectors generalizing gates phase with
  | nil => exact Synthesis.yields_pure ⟨hgates, List.forall_mem_nil _⟩
  | cons vector vectors ih =>
    rw [List.forall_mem_cons] at h
    rw [emitReflections]
    refine (c.emitReflection_yields h.1 hm depth).bind ?_
    rintro ⟨reflection, turn⟩ ws hreflection
    refine (ih (List.forall_mem_append.2 ⟨hgates, hreflection.placed⟩) _ h.2).imp fun out ws' hout => ?_
    exact ⟨hout.placed, List.forall_mem_append.2 ⟨hreflection.widths, hout.widths⟩⟩

/-- Peeling a block leaves a diagonal of its dimension. -/
theorem peel_yields (c : Compiler R) {active : ℕ} (hactive : active ≤ qubits)
    (block : Dense (Amplitude R) (2 ^ active) (2 ^ active)) (depth : ℕ) :
    (c.peel qubits active block depth).Yields fun peeled ws =>
      StaysWithin qubits peeled.gates ws ∧ peeled.diagonal.length = 2 ^ active := by
  have hend {active : ℕ} (block : Dense (Amplitude R) (2 ^ active) (2 ^ active)) :
      (pure ⟨[], block.diagonal, 0⟩ : Synthesis R (Peeled R)).Yields fun peeled ws =>
        StaysWithin qubits peeled.gates ws ∧ peeled.diagonal.length = 2 ^ active :=
    Synthesis.yields_pure ⟨⟨List.forall_mem_nil _, List.forall_mem_nil _⟩, by simp⟩
  induction active generalizing depth with
  | zero => exact hend block
  | succ active ih =>
    rw [peel]
    split
    case isTrue => exact hend block
    case isFalse =>
      have hpow : 2 ^ (active + 1) = 2 ^ active + 2 ^ active := by rw [pow_succ, mul_two]
      dsimp only
      -- a frame reduces half of its columns, so that the reducer never runs out of them
      refine (Synthesis.yields_lift (Householder.Reducer.steps_half_settle block)).bind ?_
      rintro reflectors _ ⟨-, rfl⟩
      refine (ih (by omega) _ (depth + 1)).bind ?_
      rintro child ws ⟨hchild, hlen⟩
      refine (c.emitReflections_yields hactive depth hchild.placed child.phase
        fun _ => Householder.Reducer.length_of_mem_vectors).bind ?_
      rintro ⟨gates, phase⟩ ws' hgates
      refine Synthesis.yields_pure ⟨⟨hgates.placed, ?_⟩, ?_⟩
      · simpa using List.forall_mem_append.2 ⟨hchild.widths, hgates.widths⟩
      · simp [hlen, hpow]

/-- The general synthesis looks up exactly the tables of the widths from one to that of the register. -/
theorem compileGeneral_yields (c : Compiler R) (u : Dense (Amplitude R) (2 ^ qubits) (2 ^ qubits)) :
    (c.compileGeneral u).Yields (Covers qubits qubits) := by
  rw [compileGeneral]
  refine (c.peel_yields le_rfl u 0).bind ?_
  rintro peeled ws ⟨hpeeled, hlen⟩
  refine (synthesizeDiagonal_yields hlen (Nat.zero_add qubits)).bind ?_
  rintro ⟨gates, phase⟩ ws' hgates
  refine Synthesis.yields_pure ⟨List.forall_mem_append.2 ⟨hgates.placed, hpeeled.placed⟩, fun w => ?_⟩
  rw [List.append_nil, List.mem_append, hgates.widths]
  exact or_iff_right_of_imp (hpeeled.widths w)

end Compiler

end CircuitSynthesis
