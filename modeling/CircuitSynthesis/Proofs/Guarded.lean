import Mathlib
import CircuitSynthesis.Guarded
import CircuitSynthesis.Proofs.Acceptance
import CircuitSynthesis.Proofs.Settings

/-!
# No index or shift is out of range

From a sound cache the compiler that checks its indices and shifts does what the compiler does (`Synthesis.Keeps`): no check
ever fails. The lengths that the checks need are those that the syntheses are known to return, so that the proof follows the
syntheses bind by bind.
-/

namespace CircuitSynthesis

variable {R : Type} [Scalar R] {α β : Type}

namespace Synthesis

/-- From every sound cache a computation with checks runs through, and does what the synthesis does. -/
def Keeps (s : Synthesis R α) (g : Guarded R α) : Prop :=
  ∀ cache : SignTableCache R, cache.Sound → g.run cache = some (s.run cache).run

variable {s : Synthesis R α} {g : Guarded R α} {f : α → Synthesis R β} {f? : α → Guarded R β}

/-- A synthesis with nothing to check is kept as it is. -/
lemma keeps_free (s : Synthesis R α) : s.Keeps (Guarded.free s) := fun _ _ => rfl

/-- A value is kept as it is. -/
lemma keeps_pure (a : α) : (pure a : Synthesis R α).Keeps (pure a) := fun _ _ => rfl

/-- An error is kept as it is. -/
lemma keeps_throw (e : SynthesisError R) : (throw e : Synthesis R α).Keeps (throw e) := fun _ _ => rfl

/-- A check that holds does not stop the computation. -/
lemma Keeps.check {p : Prop} [Decidable p] (hp : p) (h : s.Keeps g) : s.Keeps (Guarded.check p >>= fun _ => g) := by
  have hpass : (Guarded.check p : Guarded R Unit) = pure () := by
    rw [Guarded.check, guard, if_pos hp]
    rfl
  rw [hpass]
  exact h

/-- What comes after a result has to run through only for that result. -/
lemma Keeps.bind_follows {r : Except (SynthesisError R) α} {ws : List ℕ} (h : s.Keeps g) (hs : s.Follows r ws)
    (hf : ∀ a, r = .ok a → (f a).Keeps (f? a)) : (s >>= f).Keeps (g >>= f?) := by
  intro cache hcache
  have hfirst := h cache hcache
  rw [hs cache hcache] at hfirst
  change ((g.run cache).bind fun x => ExceptT.bindCont f? x.1 x.2) =
    some (ExceptT.bindCont f (s.run cache).run.1 (s.run cache).run.2).run
  rw [hfirst, hs cache hcache]
  cases r with
  | error e => rfl
  | ok a => exact hf a rfl _ (hcache.lookUp ws)

/-- What comes after a synthesis may rely on what the synthesis returns. -/
lemma Keeps.bind {P : α → List ℕ → Prop} (h : s.Keeps g) (hs : s.Yields P) (hf : ∀ a ws, P a ws → (f a).Keeps (f? a)) :
    (s >>= f).Keeps (g >>= f?) := by
  obtain ⟨r, ws, hrun, hr⟩ := hs
  refine h.bind_follows hrun fun a ha => ?_
  subst ha
  exact hf a ws hr

end Synthesis

open Synthesis

section Levels

variable {cutoff : R} {wires target : ℕ}

/-- A ladder has a control for each of its angles, if it has any control. -/
lemma SignTable.length_ladder_build {width : ℕ} (h : width - 1 ≠ 0) :
    (SignTable.build width : SignTable R width).ladder.length = 2 ^ (width - 1) := by
  obtain ⟨k, hk⟩ := Nat.exists_eq_succ_of_ne_zero h
  change (GrayCode.controlLadder (width - 1)).length = 2 ^ (width - 1)
  rw [hk]
  exact GrayCode.length_controlLadder k

/-- Looking up a table meets no shift that is too wide as long as the table has fewer controls than a word has bits. -/
lemma keeps_table {width : ℕ} (h : width - 1 < wordBits) : (table width : Synthesis R _).Keeps (table? width) :=
  ((keeps_free _).check fun p _ => by rw [GrayCode.length_toggleWalk]; exact Nat.sub_le _ 1).check h

/-- A multiplexed rotation finds a control for each of its angles. -/
lemma keeps_multiplexedRotation (axis : Axis) (angles : List R) (target : ℕ) {width : ℕ} (cutoff : R) :
    (liftM (multiplexedRotation axis angles target (SignTable.build width : SignTable R width) cutoff) : Synthesis R _).Keeps
      (multiplexedRotation? axis angles target (SignTable.build width) cutoff) :=
  (keeps_free _).check (or_iff_not_imp_left.2 SignTable.length_ladder_build)

/-- A list of `2^wires` entries has every pair that is read, and as many angles as pairs. -/
theorem diagonalLevels_keeps (hwires : wires ≤ wordBits) (d : List (Amplitude R)) (hlen : d.length = 2 ^ wires) (target : ℕ) :
    (diagonalLevels cutoff wires d target).Keeps (diagonalLevels? cutoff wires d target) := by
  induction wires generalizing d target with
  | zero => exact (keeps_pure _).check (hlen ▸ Nat.one_pos)
  | succ wires ih =>
    have hhalf := half_length hlen
    have hangles : (pairPhases d).length = 2 ^ wires := (length_pairPhases d).trans hhalf
    rw [diagonalLevels, diagonalLevels?]
    refine (keeps_table (by omega)).bind (yields_table (wires + 1)) ?_
    rintro _ _ ⟨rfl, rfl⟩
    have hpow : 2 ^ (wires + 1) = 2 * 2 ^ wires := pow_succ' 2 wires
    refine .check (fun i hi => by omega) (.check (hlen ▸ Nat.one_lt_two_pow wires.succ_ne_zero) ?_)
    refine (keeps_multiplexedRotation .z _ target cutoff).bind
      (yields_lift (settles_multiplexedRotation .z hangles target cutoff)) fun level ws _ => ?_
    refine .check (fun x hx => by omega) ?_
    have hparents (f : Amplitude R × Amplitude R → R → Amplitude R) :
        (List.zipWith f (pairs d) (pairPhases d)).length = 2 ^ wires := by
      rw [List.length_zipWith, length_pairs, hangles, hhalf, min_self]
    exact (ih (by omega) _ (hparents _) (target + 1)).bind (diagonalLevels_yields wires _ (hparents _) (target + 1))
      fun _ _ _ => keeps_pure _

/-- A diagonal whose wires can be counted by the bits of a word is synthesized without an index or a shift out of range. -/
theorem synthesizeDiagonal_keeps {m : ℕ} {d : List (Amplitude R)} (hlen : d.length = 2 ^ m) (hm : m ≤ wordBits) (lo : ℕ) :
    (synthesizeDiagonal d lo cutoff).Keeps (synthesizeDiagonal? d lo cutoff) := by
  rw [synthesizeDiagonal, synthesizeDiagonal?, hlen, if_pos (isPowerOfTwo_two_pow m), if_pos (isPowerOfTwo_two_pow m),
    Nat.log2_two_pow]
  refine (keeps_free _).bind (yields_lift (settles_normalizePhases d 0)) ?_
  rintro phases _ ⟨hphases, rfl⟩
  exact diagonalLevels_keeps hm phases (hphases.trans hlen) lo

/-- The levels of a state read pairs that are there, by induction over the wires. -/
theorem stateLevels_keeps (hwires : wires ≤ wordBits) (v : List (Amplitude R)) (hlen : v.length = 2 ^ wires) (target : ℕ) :
    (stateLevels cutoff wires v target).Keeps (stateLevels? cutoff wires v target) := by
  induction wires generalizing v target with
  | zero => exact (keeps_pure _).check (hlen ▸ Nat.one_pos)
  | succ wires ih =>
    have hparents := length_map_pairs parentAmplitude hlen
    rw [stateLevels, stateLevels?]
    refine (ih (by omega) _ hparents (target + 1)).bind (stateLevels_yields wires _ hparents (target + 1)) ?_
    rintro ⟨above, phase⟩ ws -
    refine (keeps_table (by omega)).bind (yields_table (wires + 1)) ?_
    rintro _ _ ⟨rfl, rfl⟩
    refine (keeps_multiplexedRotation .y _ target cutoff).bind
      (yields_lift (settles_multiplexedRotation .y (length_map_pairs splitAngle hlen) target cutoff)) fun split ws _ => ?_
    exact (keeps_multiplexedRotation .z _ target cutoff).bind
      (yields_lift (settles_multiplexedRotation .z (length_map_pairs phaseAngle hlen) target cutoff)) fun turn ws _ =>
        keeps_pure _

/-- A state whose wires can be counted by the bits of a word is prepared without an index or a shift out of range. -/
theorem synthesizeState_keeps {m : ℕ} {v : List (Amplitude R)} (hlen : v.length = 2 ^ m) (hm : m ≤ wordBits) (lo : ℕ) :
    (synthesizeState v lo cutoff).Keeps (synthesizeState? v lo cutoff) := by
  rw [synthesizeState, synthesizeState?, hlen, if_pos (isPowerOfTwo_two_pow m), if_pos (isPowerOfTwo_two_pow m),
    Nat.log2_two_pow]
  split
  case h_1 z index hfound =>
    have hfound : v.zipIdx.find? (fun entry => !entry.1.isFinite) = some (z, index) := hfound
    rw [hfound]
    exact keeps_throw _
  case h_2 hnone =>
    have hnone : v.zipIdx.find? (fun entry => !entry.1.isFinite) = none := hnone
    rw [hnone]
    exact stateLevels_keeps hm v hlen lo

end Levels

namespace Compiler

variable {c : Compiler R} {qubits depth : ℕ}

/-- The state that a reflection flips is one of the register. -/
lemma flipped_lt (h : depth ≤ qubits) : (2 ^ depth - 1) <<< (qubits - depth) < 2 ^ qubits :=
  calc (2 ^ depth - 1) <<< (qubits - depth) = (2 ^ depth - 1) * 2 ^ (qubits - depth) := Nat.shiftLeft_eq _ _
    _ < 2 ^ depth * 2 ^ (qubits - depth) :=
      Nat.mul_lt_mul_of_pos_right (Nat.sub_lt (Nat.two_pow_pos depth) Nat.one_pos) (Nat.two_pow_pos _)
    _ = 2 ^ qubits := by rw [← pow_add, Nat.add_sub_cancel' h]

/-- A reflection flips a basis state of its register. -/
theorem emitReflection_keeps (c : Compiler R) {m : ℕ} {vector : List (Amplitude R)} (hlen : vector.length = 2 ^ m)
    (hm : m ≤ qubits) (hdepth : depth ≤ qubits) (hqubits : qubits < wordBits) :
    (c.emitReflection vector depth qubits).Keeps (c.emitReflection? vector depth qubits) := by
  rw [emitReflection, emitReflection?]
  dsimp only
  refine (synthesizeState_keeps hlen (by omega) 0).bind (synthesizeState_yields hlen (Nat.zero_add m)) ?_
  rintro ⟨prepare, turn⟩ ws -
  refine .check ⟨hdepth, by omega, by omega, hqubits⟩ (.check (flipped_lt hdepth) ?_)
  exact (synthesizeDiagonal_keeps (by simp) hqubits.le 0).bind (synthesizeDiagonal_yields (by simp) (Nat.zero_add qubits))
    fun _ _ _ => keeps_pure _

/-- Reflections emitted in turn flip basis states of one register. -/
theorem emitReflections_keeps (c : Compiler R) {m : ℕ} (hm : m ≤ qubits) (hdepth : depth ≤ qubits)
    (hqubits : qubits < wordBits) (gates : List (ElementaryGate R)) (phase : R) {vectors : List (List (Amplitude R))}
    (h : ∀ vector ∈ vectors, vector.length = 2 ^ m) :
    (c.emitReflections depth qubits gates phase vectors).Keeps (c.emitReflections? depth qubits gates phase vectors) := by
  induction vectors generalizing gates phase with
  | nil => exact keeps_pure _
  | cons vector vectors ih =>
    rw [List.forall_mem_cons] at h
    rw [emitReflections, emitReflections?]
    exact (c.emitReflection_keeps h.1 hm hdepth hqubits).bind (c.emitReflection_yields h.1 hm depth)
      fun _ _ _ => ih _ _ h.2

/-- The frames of the peeling stay inside the register: what a block has lost in wires is the depth that it has gained. -/
theorem peel_keeps (c : Compiler R) {active : ℕ} (hactive : active + depth ≤ qubits) (hqubits : qubits < wordBits)
    (block : Dense (Amplitude R) (2 ^ active) (2 ^ active)) :
    (c.peel qubits active block depth).Keeps (c.peel? qubits active block depth) := by
  induction active generalizing depth with
  | zero => exact keeps_pure _
  | succ active ih =>
    rw [peel, peel?]
    split
    case isTrue => exact keeps_pure _
    case isFalse =>
      have hvectors (reflectors : List (Option (Householder.Reflector R (2 ^ (active + 1))))) :
          ∀ vector ∈ ((reflectors.filterMap id).map fun r => r.vector.toList).reverse, vector.length = 2 ^ (active + 1) :=
        fun _ => Householder.Reducer.length_of_mem_vectors
      dsimp only
      refine (keeps_free _).bind (yields_lift (Householder.Reducer.steps_half_settle block)) ?_
      rintro reflectors _ ⟨-, rfl⟩
      refine (ih (by omega) _).bind (c.peel_yields (by omega) _ (depth + 1)) ?_
      rintro child ws ⟨hchild, -⟩
      refine (c.emitReflections_keeps (by omega) (by omega) hqubits child.gates child.phase (hvectors reflectors)).bind
        (c.emitReflections_yields (by omega) depth hchild.placed child.phase (hvectors reflectors)) fun _ _ _ => ?_
      refine .check ?_ (keeps_pure _)
      rw [Dense.length_diagonal]
      exact Nat.pow_le_pow_right Nat.two_pos (Nat.le_succ active)

/-- The general synthesis peels and then reads a diagonal of the right length. -/
theorem compileGeneral_keeps (c : Compiler R) (hqubits : qubits < wordBits)
    (u : Dense (Amplitude R) (2 ^ qubits) (2 ^ qubits)) : (c.compileGeneral u).Keeps (c.compileGeneral? u) := by
  rw [compileGeneral, compileGeneral?]
  refine (c.peel_keeps (Nat.add_zero qubits).le hqubits u).bind (c.peel_yields le_rfl u 0) ?_
  rintro peeled ws ⟨-, hlen⟩
  exact (synthesizeDiagonal_keeps hlen hqubits.le 0).bind (synthesizeDiagonal_yields hlen (Nat.zero_add qubits))
    fun _ _ _ => keeps_pure _

/-- The synthesis of each class keeps within its indices. -/
theorem compileAs_keeps (c : Compiler R) (hqubits : qubits < wordBits) (u : Dense (Amplitude R) (2 ^ qubits) (2 ^ qubits)) :
    (c.compileAs u (c.classOf u)).Keeps (c.compileAs? u (c.classOf u)) := by
  cases hkind : c.classOf u with
  | singleQubit =>
    obtain rfl := eq_of_classOf.1 hkind
    exact (keeps_free _).check le_rfl
  | diagonal => exact synthesizeDiagonal_keeps (by simp) hqubits.le 0
  | twoQubit => exact keeps_free _
  | general => exact c.compileGeneral_keeps hqubits u

/-- An operator is compiled without an index or a shift out of range, also if it is refused. -/
theorem compile_keeps (hmax : c.settings.maxQubits.toNat < wordBits) {m n : ℕ} (unitary : Dense (Amplitude R) m n)
    (qubits : ℕ) : (c.compile unitary qubits).Keeps (c.compile? unitary qubits) := by
  have hvalid : (liftM (c.validate unitary qubits) : Synthesis R _).Keeps (c.validate? unitary qubits) :=
    (keeps_free _).check fun h => h.2.2.trans_lt hmax
  rw [compile, compile?]
  refine hvalid.bind_follows (follows_lift _) fun u hu => ?_
  obtain ⟨-, -, -, hqubits⟩ := validate_eq_ok hu
  obtain ⟨r, ws, hrun, -, -⟩ := c.compileAs_ends u
  exact (c.compileAs_keeps (hqubits.trans_lt hmax) u).bind_follows hrun fun _ _ => keeps_pure _

/-- A state is prepared without an index or a shift out of range, also if it is refused. -/
theorem prepareState_keeps (hmax : c.settings.maxQubits.toNat < wordBits) (amplitudes : List (Amplitude R)) :
    (c.prepareState amplitudes).Keeps (c.prepareState? amplitudes) := by
  rw [prepareState, prepareState?]
  dsimp only
  split
  case isTrue => exact keeps_throw _
  case isFalse hlength =>
    obtain ⟨k, -, hlen⟩ := length_check_iff.1 hlength
    rw [hlen, Nat.log2_two_pow]
    split
    case isTrue => exact keeps_throw _
    case isFalse hlimit =>
      split
      case isTrue =>
        exact (synthesizeState_keeps hlen (by omega) 0).bind (synthesizeState_yields hlen (Nat.zero_add k))
          fun _ _ _ => keeps_pure _
      case isFalse => exact keeps_throw _

/-- A diagonal whose entries can be numbered by words is compiled without an index or a shift out of range, also if it is
refused. -/
theorem compileDiagonal_keeps (c : Compiler R) {diagonal : List (Amplitude R)} (h : diagonal.length < 2 ^ wordBits) :
    (c.compileDiagonal diagonal).Keeps (c.compileDiagonal? diagonal) := by
  rw [compileDiagonal, compileDiagonal?]
  dsimp only
  split
  case isTrue => exact keeps_throw _
  case isFalse hlength =>
    obtain ⟨k, -, hlen⟩ := length_check_iff.1 hlength
    have hk : k ≤ wordBits := ((Nat.pow_lt_pow_iff_right Nat.one_lt_two).1 (hlen ▸ h)).le
    split
    case isTrue =>
      exact (synthesizeDiagonal_keeps hlen hk 0).bind (synthesizeDiagonal_yields hlen (Nat.zero_add k))
        fun _ _ _ => keeps_pure _
    case isFalse => exact keeps_throw _

end Compiler

end CircuitSynthesis
