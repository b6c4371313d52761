import Mathlib
import CircuitSynthesis.Proofs.Sessions
import CircuitSynthesis.Proofs.TwoQubit.Gates

/-!
# What programs cost

Whatever the arithmetic does, it can only leave out gates: a ladder has a step for each value of its controls, and with no
controls it has no controlled-NOT. `Spends` bounds the rotations and the controlled-NOTs of a list of gates. The bounds of
the levels double from one to the next and add up to those of a diagonal and of a state. A frame of the peeling emits as
many reflections as it reduces columns, and `IsReflections` counts them through the recursion together with their
controlled-NOTs.
-/

namespace CircuitSynthesis

variable {R : Type}

/-- Bounds on the rotations and the controlled-NOTs among some gates. -/
structure Spends (rotations entanglers : ℕ) (gates : List (ElementaryGate R)) : Prop where
  rotations_le : gates.countP ElementaryGate.isRotation ≤ rotations
  entanglers_le : gates.countP ElementaryGate.isEntangler ≤ entanglers

namespace Spends

variable {a b a' b' : ℕ} {gates gates' : List (ElementaryGate R)}

/-- No gates cost nothing. -/
lemma nil : Spends a b ([] : List (ElementaryGate R)) := ⟨Nat.zero_le _, Nat.zero_le _⟩

/-- The costs of two parts add up. -/
lemma append (h : Spends a b gates) (h' : Spends a' b' gates') : Spends (a + a') (b + b') (gates ++ gates') where
  rotations_le := List.countP_append.trans_le (Nat.add_le_add h.rotations_le h'.rotations_le)
  entanglers_le := List.countP_append.trans_le (Nat.add_le_add h.entanglers_le h'.entanglers_le)

/-- A budget may be raised. -/
lemma mono (h : Spends a b gates) (ha : a ≤ a') (hb : b ≤ b') : Spends a' b' gates :=
  ⟨h.rotations_le.trans ha, h.entanglers_le.trans hb⟩

/-- Undoing gates costs as much as doing them. -/
lemma inverse [Scalar R] (h : Spends a b gates) : Spends a b (gates.reverse.map ElementaryGate.inverse) := by
  have hrotation (g : ElementaryGate R) : g.inverse.isRotation = g.isRotation := by cases g <;> rfl
  have hentangler (g : ElementaryGate R) : g.inverse.isEntangler = g.isEntangler := by cases g <;> rfl
  constructor
  · rw [List.countP_map, List.countP_reverse]
    simpa only [Function.comp_def, hrotation] using h.rotations_le
  · rw [List.countP_map, List.countP_reverse]
    simpa only [Function.comp_def, hentangler] using h.entanglers_le

end Spends

/-- The controlled-NOTs of a ladder with `k` controls. -/
def ladderEntanglers : ℕ → ℕ
  | 0 => 0
  | k + 1 => 2 ^ (k + 1)

/-- What the wires above cost and the ladder of the next level add up to what that level and they cost. -/
lemma ladderEntanglers_add (k : ℕ) : ladderEntanglers k + (2 ^ k - 2) = 2 ^ (k + 1) - 2 := by
  cases k with
  | zero => rfl
  | succ k =>
    have hpos := Nat.two_pow_pos k
    rw [ladderEntanglers]
    omega

variable [Scalar R]

section Levels

variable {cutoff : R}

/-- A ladder has as many controls as a multiplexed rotation may spend on controlled-NOTs. -/
lemma length_controlLadder_eq (k : ℕ) : (GrayCode.controlLadder k).length = ladderEntanglers k := by
  cases k with
  | zero => rfl
  | succ k => exact GrayCode.length_controlLadder k

/-- A multiplexed rotation over `k` controls spends a rotation on each of its `2 ^ k` angles and a controlled-NOT on each
control of its ladder. -/
lemma spends_of_multiplexedRotation {axis : Axis} {k target : ℕ} {angles : List R} {gates : List (ElementaryGate R)}
    (h : multiplexedRotation axis angles target (SignTable.build (k + 1)) cutoff = .ok gates) :
    Spends (2 ^ k) (ladderEntanglers k) gates := by
  cases hsolve : (SignTable.build (k + 1) : SignTable R (k + 1)).solve angles with
  | error e =>
    rw [multiplexedRotation, hsolve] at h
    cases h
  | ok theta =>
    obtain ⟨first, rest, hlist, hlength⟩ := exists_toList_eq_cons theta
    rw [multiplexedRotation_of_solve axis target cutoff hsolve hlist, SignTable.ladder_build] at h
    split at h
    case isTrue =>
      cases h
      constructor
      · exact (countP_isRotation_rotationLadder_le _ _).trans_eq hlength
      · rw [countP_rotationLadder, length_controlLadder_eq]
        exact Nat.min_le_right _ _
    case isFalse =>
      split at h
      case isTrue =>
        cases h
        exact ⟨Nat.two_pow_pos k, Nat.zero_le _⟩
      case isFalse =>
        cases h
        exact .nil

/-- The levels of a diagonal halve, so that their rotations and controlled-NOTs sum to geometric series. -/
lemma diagonalLevels_spends (wires : ℕ) (d : List (Amplitude R)) (target : ℕ) :
    (diagonalLevels cutoff wires d target).Ensures fun out => Spends (2 ^ wires - 1) (2 ^ wires - 2) out.1 := by
  induction wires generalizing d target with
  | zero => exact Synthesis.ensures_pure .nil
  | succ wires ih =>
    rw [diagonalLevels]
    refine (Synthesis.ensures_table (wires + 1)).bind ?_
    rintro _ rfl
    refine (Synthesis.ensures_lift fun level hlevel => spends_of_multiplexedRotation hlevel).bind fun level hlevel => ?_
    refine (ih _ (target + 1)).bind ?_
    rintro ⟨rest, phase⟩ hrest
    refine Synthesis.ensures_pure ((hlevel.append hrest).mono ?_ (ladderEntanglers_add wires).le)
    have hpos := Nat.two_pow_pos wires
    omega

/-- A diagonal of `2 ^ m` phases costs at most `2 ^ m - 1` rotations and `2 ^ m - 2` controlled-NOTs. -/
theorem synthesizeDiagonal_spends {m : ℕ} {d : List (Amplitude R)} (hlen : d.length = 2 ^ m) (lo : ℕ) :
    (synthesizeDiagonal d lo cutoff).Ensures fun out => Spends (2 ^ m - 1) (2 ^ m - 2) out.1 := by
  rw [synthesizeDiagonal, hlen, if_pos (isPowerOfTwo_two_pow m), Nat.log2_two_pow]
  exact (Synthesis.ensures_lift fun _ _ => trivial).bind fun phases _ => diagonalLevels_spends m phases lo

/-- The levels of a state cost twice what those of a diagonal cost, since each splits and turns. -/
lemma stateLevels_spends (wires : ℕ) (v : List (Amplitude R)) (target : ℕ) :
    (stateLevels cutoff wires v target).Ensures fun out => Spends (2 * (2 ^ wires - 1)) (2 * (2 ^ wires - 2)) out.1 := by
  induction wires generalizing v target with
  | zero => exact Synthesis.ensures_pure .nil
  | succ wires ih =>
    rw [stateLevels]
    refine (ih _ (target + 1)).bind ?_
    rintro ⟨above, phase⟩ habove
    refine (Synthesis.ensures_table (wires + 1)).bind ?_
    rintro _ rfl
    refine (Synthesis.ensures_lift fun split hsplit => spends_of_multiplexedRotation hsplit).bind fun split hsplit => ?_
    refine (Synthesis.ensures_lift fun turn hturn => spends_of_multiplexedRotation hturn).bind fun turn hturn => ?_
    have hladder := ladderEntanglers_add wires
    have hpos := Nat.two_pow_pos wires
    exact Synthesis.ensures_pure (((habove.append hsplit).append hturn).mono (by omega) (by omega))

/-- The preparation of a state on `m` wires: two ladders on each wire. -/
theorem synthesizeState_spends {m : ℕ} {v : List (Amplitude R)} (hlen : v.length = 2 ^ m) (lo : ℕ) :
    (synthesizeState v lo cutoff).Ensures fun out => Spends (2 * (2 ^ m - 1)) (2 * (2 ^ m - 2)) out.1 := by
  rw [synthesizeState, hlen, if_pos (isPowerOfTwo_two_pow m), Nat.log2_two_pow]
  split
  case h_1 => exact (Synthesis.follows_throw _).ensures_error
  case h_2 => exact stateLevels_spends m v lo

end Levels

namespace TwoQubit

/-- The three blocks of an interaction. -/
lemma Decomposition.spends_gates (d : Decomposition R) (cutoff : R) : Spends 3 6 (d.gates cutoff).1 := by
  constructor
  · rw [gates, countP_fuse fun _ _ => rfl]
    exact countP_rawGates_le (k := 1) (fun _ _ => rfl) fun _ => rfl
  · rw [gates, countP_fuse fun _ _ => rfl]
    exact countP_rawGates_le (k := 2) (fun _ _ => rfl) fun _ => rfl

end TwoQubit

namespace Compiler

variable {c : Compiler R} {qubits : ℕ}

/-- The controlled-NOTs of a reflection whose vector lies on `m` wires: two preparations and a flip of the register. -/
def reflectionEntanglers (qubits m : ℕ) : ℕ := 4 * (2 ^ m - 2) + (2 ^ qubits - 2)

/-- A reflection pays for the phase flip and twice for the preparation of its vector. -/
lemma emitReflection_entanglers (c : Compiler R) {m : ℕ} {vector : List (Amplitude R)} (hlen : vector.length = 2 ^ m)
    (depth : ℕ) : (c.emitReflection vector depth qubits).Ensures fun out =>
      out.1.countP ElementaryGate.isEntangler ≤ reflectionEntanglers qubits m := by
  rw [emitReflection]
  dsimp only
  refine (synthesizeState_spends hlen 0).bind ?_
  rintro ⟨prepare, turn⟩ hprepare
  refine (synthesizeDiagonal_spends (m := qubits) (by simp) 0).bind ?_
  rintro ⟨flip, phase⟩ hflip
  refine Synthesis.ensures_pure (((hprepare.inverse.append hflip).append hprepare).entanglers_le.trans ?_)
  rw [reflectionEntanglers]
  omega

/-- Some gates are those of a number of reflections, one after the other, with a bound on their controlled-NOTs. -/
structure IsReflections (c : Compiler R) (qubits count entanglers : ℕ) (gates : List (ElementaryGate R)) : Prop where
  parts : ∃ reflections : List (List (ElementaryGate R)), gates = reflections.flatten ∧ reflections.length ≤ count ∧
    ∀ part ∈ reflections, ∃ vector depth phase, (c.emitReflection vector depth qubits).Gives (.ok (part, phase))
  entanglers_le : gates.countP ElementaryGate.isEntangler ≤ entanglers

namespace IsReflections

variable {count count' entanglers entanglers' : ℕ} {gates : List (ElementaryGate R)}

/-- No gates are no reflections. -/
lemma nil : c.IsReflections qubits count entanglers [] := ⟨⟨[], rfl, Nat.zero_le _, nofun⟩, Nat.zero_le _⟩

/-- The number of reflections and the controlled-NOTs allowed to them may be raised. -/
lemma mono (h : c.IsReflections qubits count entanglers gates) (hcount : count ≤ count')
    (hentanglers : entanglers ≤ entanglers') : c.IsReflections qubits count' entanglers' gates := by
  obtain ⟨⟨reflections, hgates, hlength, hparts⟩, hle⟩ := h
  exact ⟨⟨reflections, hgates, hlength.trans hcount, hparts⟩, hle.trans hentanglers⟩

/-- One more reflection at the end adds its controlled-NOTs. -/
lemma snoc (h : c.IsReflections qubits count entanglers gates) {vector : List (Amplitude R)} {depth : ℕ}
    {part : List (ElementaryGate R)} {phase : R} (hpart : (c.emitReflection vector depth qubits).Gives (.ok (part, phase)))
    (hentanglers : part.countP ElementaryGate.isEntangler ≤ entanglers') :
    c.IsReflections qubits (count + 1) (entanglers + entanglers') (gates ++ part) := by
  obtain ⟨⟨reflections, rfl, hlength, hparts⟩, hle⟩ := h
  refine ⟨⟨reflections ++ [part], by simp, by simpa using hlength, ?_⟩, ?_⟩
  · refine List.forall_mem_append.2 ⟨hparts, fun _ hmem => ?_⟩
    rw [List.mem_singleton.1 hmem]
    exact ⟨vector, depth, phase, hpart⟩
  · rw [List.countP_append]
    exact Nat.add_le_add hle hentanglers

end IsReflections

/-- Reflections emitted in turn add one to the count for each vector. -/
lemma emitReflections_spends (c : Compiler R) {m : ℕ} (depth : ℕ) {gates : List (ElementaryGate R)} {count entanglers : ℕ}
    (hgates : c.IsReflections qubits count entanglers gates) (phase : R) {vectors : List (List (Amplitude R))}
    (h : ∀ vector ∈ vectors, vector.length = 2 ^ m) :
    (c.emitReflections depth qubits gates phase vectors).Ensures fun out =>
      c.IsReflections qubits (count + vectors.length) (entanglers + vectors.length * reflectionEntanglers qubits m) out.1 := by
  induction vectors generalizing gates phase count entanglers with
  | nil => exact Synthesis.ensures_pure (hgates.mono (Nat.le_add_right _ _) (Nat.le_add_right _ _))
  | cons vector vectors ih =>
    rw [List.forall_mem_cons] at h
    rw [emitReflections]
    refine (c.emitReflection_entanglers h.1 depth).and_gives.bind ?_
    rintro ⟨reflection, turn⟩ ⟨hentanglers, hgives⟩
    refine (ih (hgates.snoc hgives hentanglers) (phase + turn) h.2).imp fun out hout => hout.mono ?_ ?_
    · rw [List.length_cons]
      omega
    · rw [List.length_cons, Nat.succ_mul]
      omega

/-- The controlled-NOTs that are spent below a frame of `active` wires and in it. -/
def peelEntanglers (qubits active : ℕ) : ℕ := ∑ m ∈ Finset.Icc 1 active, 2 ^ (m - 1) * reflectionEntanglers qubits m

/-- A block on one wire more adds a reflection for each column of its first half. -/
lemma peelEntanglers_succ (qubits active : ℕ) : peelEntanglers qubits (active + 1) =
    peelEntanglers qubits active + 2 ^ active * reflectionEntanglers qubits (active + 1) := by
  rw [peelEntanglers, Finset.sum_Icc_succ_top (Nat.le_add_left 1 active), peelEntanglers, Nat.add_sub_cancel]

/-- A frame reduces half of its columns, each of them by one reflection at most. -/
lemma length_vectors_le {k : ℕ} {block : Dense (Amplitude R) (2 ^ (k + 1)) (2 ^ (k + 1))}
    {reflectors : List (Option (Householder.Reflector R (2 ^ (k + 1))))}
    (h : ((Householder.Reducer.steps (2 ^ k)).run (.ofDense block)).run.1 = .ok reflectors) :
    (((reflectors.filterMap id).map fun r => r.vector.toList).reverse).length ≤ 2 ^ k := by
  have hlength := Householder.Reducer.steps_half_settle_length block
  rw [h] at hlength
  rw [List.length_reverse, List.length_map]
  exact (List.length_filterMap_le _ _).trans_eq hlength

/-- Peeling a block of `2 ^ active` columns emits at most `2 ^ active - 1` reflections, by induction over the frames. -/
theorem peel_spends (c : Compiler R) (active : ℕ) (block : Dense (Amplitude R) (2 ^ active) (2 ^ active)) (depth : ℕ) :
    (c.peel qubits active block depth).Ensures fun peeled =>
      c.IsReflections qubits (2 ^ active - 1) (peelEntanglers qubits active) peeled.gates ∧
        peeled.diagonal.length = 2 ^ active := by
  induction active generalizing depth with
  | zero => exact Synthesis.ensures_pure ⟨.nil, block.length_diagonal⟩
  | succ active ih =>
    rw [peel]
    split
    case isTrue => exact Synthesis.ensures_pure ⟨.nil, block.length_diagonal⟩
    case isFalse =>
      have hpos := Nat.two_pow_pos active
      have hpow : 2 ^ (active + 1) = 2 ^ active + 2 ^ active := by rw [pow_succ, mul_two]
      dsimp only
      -- this frame reduces one column more than all frames below it together
      refine (Synthesis.ensures_lift fun reflectors hreflectors => length_vectors_le hreflectors).bind ?_
      intro reflectors hcount
      refine (ih _ (depth + 1)).bind ?_
      rintro child ⟨hchild, hlen⟩
      refine (c.emitReflections_spends depth hchild child.phase fun _ => Householder.Reducer.length_of_mem_vectors).bind ?_
      rintro ⟨gates, phase⟩ hgates
      refine Synthesis.ensures_pure ⟨hgates.mono (by omega) ?_, ?_⟩
      · rw [peelEntanglers_succ]
        exact Nat.add_le_add_left (Nat.mul_le_mul_right _ hcount) _
      · simp [hlen, hpow]

/-- What a general program consists of: a diagonal and reflections. -/
structure IsGeneral (c : Compiler R) (qubits : ℕ) (gates : List (ElementaryGate R)) : Prop where
  parts : ∃ (first : List (ElementaryGate R)) (reflections : List (List (ElementaryGate R))),
    gates = first ++ reflections.flatten ∧ reflections.length ≤ 2 ^ qubits - 1 ∧
    (∃ diagonal phase, diagonal.length = 2 ^ qubits ∧
      (synthesizeDiagonal diagonal 0 c.settings.rotationCutoff).Gives (.ok (first, phase))) ∧
    ∀ part ∈ reflections, ∃ vector depth phase, (c.emitReflection vector depth qubits).Gives (.ok (part, phase))
  entanglers_le : gates.countP ElementaryGate.isEntangler ≤
    2 ^ qubits - 2 + ∑ m ∈ Finset.Icc 1 qubits, 2 ^ (m - 1) * (4 * (2 ^ m - 2) + (2 ^ qubits - 2))

/-- The general synthesis emits a diagonal and the reflections of the peeling. -/
theorem compileGeneral_spends (c : Compiler R) (u : Dense (Amplitude R) (2 ^ qubits) (2 ^ qubits)) :
    (c.compileGeneral u).Ensures fun out => c.IsGeneral qubits out.1 := by
  rw [compileGeneral]
  refine (c.peel_spends qubits u 0).bind ?_
  rintro peeled ⟨⟨⟨reflections, hpeeled, hlength, hparts⟩, hentanglers⟩, hlen⟩
  refine (synthesizeDiagonal_spends hlen 0).and_gives.bind ?_
  rintro ⟨gates, phase⟩ ⟨hgates, hgives⟩
  refine Synthesis.ensures_pure ⟨⟨gates, reflections, by rw [hpeeled], hlength, ⟨_, _, hlen, hgives⟩, hparts⟩, ?_⟩
  rw [List.countP_append]
  exact Nat.add_le_add hgates.entanglers_le hentanglers

/-- An operator on two wires costs at most three rotations and six controlled-NOTs. -/
lemma compileTwoQubit_spends (c : Compiler R) (u : Dense (Amplitude R) (2 ^ 2) (2 ^ 2)) :
    Ends (fun out => Spends 3 6 out.1) Classification.twoQubit.MayFail (c.compileTwoQubit u) := by
  rw [compileTwoQubit, TwoQubit.fourByFour, dif_pos ⟨rfl, rfl⟩]
  exact (TwoQubit.Decomposition.ofUnitary_ends c.kernel _ _ _).bind fun d _ => d.spends_gates c.settings.rotationCutoff

/-- What the gates of each strategy cost on a number of wires. -/
def Affords (c : Compiler R) (width : ℕ) (gates : List (ElementaryGate R)) : Strategy → Prop
  | .singleQubit => width = 1 ∧ ∃ u, gates = [.unitary 0 u]
  | .diagonal => 0 < width ∧ Spends (2 ^ width - 1) (2 ^ width - 2) gates
  | .twoQubit => width = 2 ∧ Spends 3 6 gates
  | .general => c.IsGeneral width gates
  | .statePreparation => 0 < width ∧ Spends (2 * (2 ^ width - 1)) (2 * (2 ^ width - 2)) gates

/-- The gates of each class are within the budget of its strategy. -/
theorem compileAs_affords (c : Compiler R) (hqubits : 0 < qubits) (u : Dense (Amplitude R) (2 ^ qubits) (2 ^ qubits)) :
    (c.compileAs u (c.classOf u)).Ensures fun out => c.Affords qubits out.1 (c.classOf u).strategy := by
  cases hkind : c.classOf u with
  | singleQubit =>
    obtain rfl := eq_of_classOf.1 hkind
    rw [compileAs, dif_pos (by decide : 2 ≤ 2 ^ 1)]
    exact Synthesis.ensures_pure ⟨rfl, _, rfl⟩
  | diagonal => exact (synthesizeDiagonal_spends u.length_diagonal 0).imp fun out h => ⟨hqubits, h⟩
  | twoQubit =>
    obtain rfl := eq_of_classOf.2 hkind
    refine Synthesis.ensures_lift fun out hout => ⟨rfl, ?_⟩
    have hspends := c.compileTwoQubit_spends u
    rw [hout] at hspends
    exact hspends
  | general => exact c.compileGeneral_spends u

section Calls

variable {m n : ℕ}

/-- A compiled program is within the budget of its strategy. -/
lemma compile_affords (c : Compiler R) (unitary : Dense (Amplitude R) m n) (qubits : ℕ) :
    (c.compile unitary qubits).Ensures fun p => c.Affords p.width p.gates p.strategy := by
  rw [compile]
  refine (Synthesis.ensures_lift fun u hu => validate_eq_ok hu).bind fun u hu => ?_
  exact (c.compileAs_affords hu.2.2.1 u).bind fun out hout => Synthesis.ensures_pure hout

/-- A program that prepares a state is within the budget of its strategy. -/
lemma prepareState_affords (c : Compiler R) (amplitudes : List (Amplitude R)) :
    (c.prepareState amplitudes).Ensures fun p => c.Affords p.width p.gates p.strategy := by
  by_cases h : ∃ k, c.AcceptsState amplitudes k
  case pos =>
    obtain ⟨k, hk⟩ := h
    rw [prepareState_eq hk]
    exact (synthesizeState_spends hk.length_eq 0).bind fun out hout => Synthesis.ensures_pure ⟨hk.pos, hout⟩
  case neg =>
    obtain ⟨e, he⟩ := prepareState_refused (not_exists.1 h)
    exact he.ensures_error

/-- A program of a diagonal is within the budget of its strategy. -/
lemma compileDiagonal_affords (c : Compiler R) (diagonal : List (Amplitude R)) :
    (c.compileDiagonal diagonal).Ensures fun p => c.Affords p.width p.gates p.strategy := by
  by_cases h : ∃ k, c.AcceptsDiagonal diagonal k
  case pos =>
    obtain ⟨k, hk⟩ := h
    rw [compileDiagonal_eq hk]
    exact (synthesizeDiagonal_spends hk.length_eq 0).bind fun out hout => Synthesis.ensures_pure ⟨hk.pos, hout⟩
  case neg =>
    obtain ⟨e, he⟩ := compileDiagonal_refused (not_exists.1 h)
    exact he.ensures_error

/-- Whether a program that is returned costs no more than its strategy affords. -/
def AffordsAnswer (c : Compiler R) : Answer R → Prop
  | .program p => c.Affords p.width p.gates p.strategy
  | .classification _ => True
  | .accepted => True

/-- Every call of a session answers within budget. -/
theorem perform_affords (c : Compiler R) (call : Call R) : (c.perform call).Ensures c.AffordsAnswer := by
  cases call with
  | compile unitary qubits => exact (c.compile_affords unitary qubits).bind fun p hp => Synthesis.ensures_pure hp
  | prepareState amplitudes => exact (c.prepareState_affords amplitudes).bind fun p hp => Synthesis.ensures_pure hp
  | compileDiagonal diagonal => exact (c.compileDiagonal_affords diagonal).bind fun p hp => Synthesis.ensures_pure hp
  | classify unitary qubits =>
    exact (Synthesis.ensures_lift fun _ _ => trivial).bind fun kind _ => Synthesis.ensures_pure trivial
  | validate unitary qubits =>
    exact (Synthesis.ensures_lift fun _ _ => trivial).bind fun u _ => Synthesis.ensures_pure trivial

/-- The programs that the calls of a session return cost no more than their strategies afford. -/
lemma affords_of_mem_session {calls : List (Call R)} {p : Program R}
    (h : .ok (.program p) ∈ (c.session .empty calls).1) : c.Affords p.width p.gates p.strategy := by
  obtain ⟨ws, hsession, -⟩ := c.session_follows SignTableCache.sound_empty calls
  rw [hsession] at h
  obtain ⟨call, -, hcall⟩ := List.mem_map.1 h
  obtain ⟨r, ws', hrun, hr⟩ := c.perform_affords call
  exact hr (.program p) ((fresh_eq hrun).symm.trans hcall)

end Calls

/-- Whatever the arithmetic does, the programs that a compiler returns keep to these bounds. A diagonal on `m` wires has at
most `2^m - 1` rotations and `2^m - 2` controlled-NOTs, the preparation of a state at most twice as many of either, a
program of two qubits at most three rotations and six controlled-NOTs, and a program of one qubit is a single matrix. A
general program is a diagonal and at most `2^n - 1` reflections, and its controlled-NOTs are bounded by what the diagonal
and all reflections of all frames spend. -/
theorem program_costs {calls : List (Call R)} {p : Program R} (h : .ok (.program p) ∈ (c.session .empty calls).1) :
    (p.strategy = .diagonal → 0 < p.width ∧
      p.gates.countP ElementaryGate.isRotation ≤ 2 ^ p.width - 1 ∧ p.entanglerCount ≤ 2 ^ p.width - 2) ∧
    (p.strategy = .statePreparation → 0 < p.width ∧
      p.gates.countP ElementaryGate.isRotation ≤ 2 * (2 ^ p.width - 1) ∧ p.entanglerCount ≤ 2 * (2 ^ p.width - 2)) ∧
    (p.strategy = .twoQubit → p.width = 2 ∧
      p.gates.countP ElementaryGate.isRotation ≤ 3 ∧ p.entanglerCount ≤ 6) ∧
    (p.strategy = .singleQubit → p.width = 1 ∧ ∃ u, p.gates = [.unitary 0 u]) ∧
    (p.strategy = .general →
      (∃ (first : List (ElementaryGate R)) (reflections : List (List (ElementaryGate R))),
        p.gates = first ++ reflections.flatten ∧ reflections.length ≤ 2 ^ p.width - 1 ∧
        (∃ diagonal phase, diagonal.length = 2 ^ p.width ∧
          (synthesizeDiagonal diagonal 0 c.settings.rotationCutoff).Gives (.ok (first, phase))) ∧
        ∀ part ∈ reflections, ∃ vector depth phase, (c.emitReflection vector depth p.width).Gives (.ok (part, phase))) ∧
      p.entanglerCount ≤ 2 ^ p.width - 2 +
        ∑ m ∈ Finset.Icc 1 p.width, 2 ^ (m - 1) * (4 * (2 ^ m - 2) + (2 ^ p.width - 2))) := by
  have haffords := affords_of_mem_session h
  refine ⟨fun hs => ?_, fun hs => ?_, fun hs => ?_, fun hs => ?_, fun hs => ?_⟩
  · rw [hs] at haffords
    exact ⟨haffords.1, haffords.2.rotations_le, haffords.2.entanglers_le⟩
  · rw [hs] at haffords
    exact ⟨haffords.1, haffords.2.rotations_le, haffords.2.entanglers_le⟩
  · rw [hs] at haffords
    exact ⟨haffords.1, haffords.2.rotations_le, haffords.2.entanglers_le⟩
  · rw [hs] at haffords
    exact haffords
  · rw [hs] at haffords
    exact ⟨haffords.parts, haffords.entanglers_le⟩

/-- The signs of `refusedThenSigned` on two wires. -/
theorem program_costs_refusedThenSigned : ∃ p : Program ℝ,
    .ok (.program p) ∈ (plain.session .empty refusedThenSigned).1 ∧ p.width = 2 ∧ p.strategy = .diagonal ∧
      p.gates.countP ElementaryGate.isRotation ≤ 3 ∧ p.entanglerCount ≤ 2 := by
  obtain ⟨gates, phase, hmem⟩ := mem_session_refusedThenSigned
  obtain ⟨-, hrotations, hentanglers⟩ := (program_costs hmem).1 rfl
  exact ⟨_, hmem, rfl, rfl, hrotations, hentanglers⟩

end Compiler

end CircuitSynthesis
