import Mathlib
import CircuitSynthesis.Proofs.TwoQubit.Fusion

/-!
# The form of fused gates

The pass writes a matrix that waits only when a gate that touches its wire follows, or at the end. Between two steps the
latest gate on a wire is therefore no matrix (`IsFree`), so that on a wire no two matrices are written in a row, and those
that pass for multiples of the identity are not written at all (`IsFused`). `fuse_spec` joins this to what the pass keeps:
the operator, and the gates that never wait.
-/

namespace CircuitSynthesis.TwoQubit

open Matrix

namespace Fusion

/-- The gates that touch a wire. -/
def touching (wire : ℕ) (gates : List (ElementaryGate ℝ)) : List (ElementaryGate ℝ) :=
  gates.filter fun g => wire ∈ g.wires

/-- Whether the first gate that touches a wire, if there is one, is no matrix that waits. -/
def IsFree (wire : ℕ) (gates : List (ElementaryGate ℝ)) : Prop := ∀ g ∈ (touching wire gates).head?, waits g = false

/-- What holds of a list of gates that has nothing left to fuse. -/
structure IsFused (gates : List (ElementaryGate ℝ)) : Prop where
  notScalar : ∀ wire < 2, ∀ u, .unitary wire u ∈ gates → u.isScalar = false
  /-- Among the gates that touch a wire, no two matrices that wait follow each other. -/
  separated : ∀ wire, (touching wire gates).IsChain fun g g' => waits g = false ∨ waits g' = false

variable {wire p : ℕ} {f : Fusion ℝ} {g : ElementaryGate ℝ} {u v : Matrix2 ℝ} {gates : List (ElementaryGate ℝ)}

section Lists

/-- A gate on the wire comes first among those that touch it. -/
lemma touching_cons_of_mem (hp : p ∈ g.wires) : touching p (g :: gates) = g :: touching p gates :=
  List.filter_cons_of_pos (decide_eq_true hp)

/-- A gate on other wires does not count. -/
lemma touching_cons_of_notMem (hp : p ∉ g.wires) : touching p (g :: gates) = touching p gates :=
  List.filter_cons_of_neg (by simpa using hp)

/-- The gates of two lists that touch a wire. -/
lemma touching_append (p : ℕ) (gates gates' : List (ElementaryGate ℝ)) :
    touching p (gates ++ gates') = touching p gates ++ touching p gates' := List.filter_append gates gates'

/-- A wire is free where a gate that does not wait comes first on it. -/
lemma isFree_cons_of_mem (hp : p ∈ g.wires) (hg : waits g = false) : IsFree p (g :: gates) := by
  rw [IsFree, touching_cons_of_mem hp]
  exact fun g' hg' => Option.mem_some.1 hg' ▸ hg

/-- A gate on other wires does not change whether a wire is free. -/
lemma isFree_cons_of_notMem (hp : p ∉ g.wires) : IsFree p (g :: gates) ↔ IsFree p gates := by
  rw [IsFree, touching_cons_of_notMem hp, IsFree]

/-- No gates have nothing left to fuse. -/
lemma isFused_nil : IsFused [] := ⟨fun _ _ _ h => absurd h List.not_mem_nil, fun _ => .nil⟩

/-- A gate that does not wait may follow anything. -/
lemma IsFused.cons (h : IsFused gates) (hg : waits g = false) : IsFused (g :: gates) where
  notScalar wire hwire u hu := by
    rcases List.mem_cons.1 hu with rfl | hu
    · rw [waits_unitary, decide_eq_true hwire] at hg
      cases hg
    · exact h.notScalar wire hwire u hu
  separated p := by
    by_cases hp : p ∈ g.wires
    · rw [touching_cons_of_mem hp]
      exact List.isChain_cons.2 ⟨fun _ _ => .inl hg, h.separated p⟩
    · rw [touching_cons_of_notMem hp]
      exact h.separated p

/-- A matrix may follow on a free wire. -/
lemma IsFused.cons_unitary (h : IsFused gates) (hfree : IsFree wire gates) (hu : u.isScalar = false) :
    IsFused (.unitary wire u :: gates) where
  notScalar p hp v hv := by
    rcases List.mem_cons.1 hv with hv | hv
    · obtain ⟨-, rfl⟩ := ElementaryGate.unitary.inj hv
      exact hu
    · exact h.notScalar p hp v hv
  separated p := by
    by_cases hp : p ∈ (ElementaryGate.unitary wire u).wires
    · obtain rfl := List.mem_singleton.1 hp
      rw [touching_cons_of_mem hp]
      exact List.isChain_cons.2 ⟨fun g hg => .inr (hfree g hg), h.separated p⟩
    · rw [touching_cons_of_notMem hp]
      exact h.separated p

/-- A list with nothing left to fuse has nothing left when it is read backwards. -/
lemma IsFused.reverse (h : IsFused gates) : IsFused gates.reverse where
  notScalar wire hwire u hu := h.notScalar wire hwire u (List.mem_reverse.1 hu)
  separated p := by
    rw [touching, List.filter_reverse, List.isChain_reverse]
    exact (h.separated p).imp fun g g' => Or.symm

/-- Between two matrices on one of the two wires a gate that touches the wire and does not wait is found. -/
lemma IsFused.exists_between (h : IsFused gates) (hwire : wire < 2) {xs ys zs : List (ElementaryGate ℝ)}
    (hsplit : gates = xs ++ .unitary wire u :: (ys ++ .unitary wire v :: zs)) :
    ∃ g ∈ ys, wire ∈ g.wires ∧ waits g = false := by
  have hmem (w : Matrix2 ℝ) : wire ∈ (ElementaryGate.unitary wire w).wires := List.mem_singleton_self wire
  have hwaits (w : Matrix2 ℝ) : waits (.unitary wire w) = true := by rw [waits_unitary, decide_eq_true hwire]
  have hchain := h.separated wire
  rw [hsplit, touching_append, touching_cons_of_mem (hmem u), touching_append, touching_cons_of_mem (hmem v)] at hchain
  obtain ⟨hnext, -⟩ := List.isChain_cons.1 (List.isChain_append.1 hchain).2.1
  -- the gate after the first matrix comes from between, or it is the second matrix
  cases hys : touching wire ys with
  | nil =>
    rw [hys] at hnext
    have hboth := hnext _ rfl
    rw [hwaits, hwaits] at hboth
    exact absurd hboth (by decide)
  | cons g rest =>
    rw [hys] at hnext
    have hmem : g ∈ touching wire ys := hys ▸ List.mem_cons_self
    obtain ⟨hg, htouch⟩ := List.mem_filter.1 hmem
    have hboth := hnext g rfl
    rw [hwaits] at hboth
    exact ⟨g, hg, of_decide_eq_true htouch, hboth.resolve_left Bool.true_eq_false.mp⟩

end Lists

section Pass

/-- Flushing a free wire keeps the form, and the other wires as free as they were. -/
lemma IsFused.flush (h : IsFused f.written) (hfree : IsFree wire f.written) :
    IsFused (f.flush wire).written ∧ ∀ p ≠ wire, IsFree p f.written → IsFree p (f.flush wire).written := by
  rcases written_flush f wire with hsame | ⟨-, u, hu, hwritten⟩
  · rw [hsame]
    exact ⟨h, fun _ _ hp => hp⟩
  · rw [hwritten]
    exact ⟨h.cons_unitary hfree hu, fun p hp => (isFree_cons_of_notMem (List.mem_singleton.not.2 hp)).2⟩

/-- Flushing distinct free wires keeps the form, and the other wires as free as they were. -/
lemma IsFused.foldl_flush {wires : List ℕ} (hnodup : wires.Nodup) (h : IsFused f.written)
    (hfree : ∀ p ∈ wires, IsFree p f.written) : IsFused (wires.foldl Fusion.flush f).written ∧
      ∀ p ∉ wires, IsFree p f.written → IsFree p (wires.foldl Fusion.flush f).written := by
  induction wires generalizing f with
  | nil => exact ⟨h, fun _ _ hp => hp⟩
  | cons wire wires ih =>
    obtain ⟨hwire, hnodup⟩ := List.nodup_cons.1 hnodup
    obtain ⟨hform, hother⟩ := h.flush (hfree wire List.mem_cons_self)
    obtain ⟨hform, hrest⟩ := ih hnodup hform fun p hp =>
      hother p (fun heq => hwire (heq ▸ hp)) (hfree p (List.mem_cons_of_mem wire hp))
    refine ⟨hform, fun p hp hpfree => ?_⟩
    rw [List.mem_cons, not_or] at hp
    exact hrest p hp.2 (hother p hp.1 hpfree)

/-- Taking a gate keeps the form and leaves every wire free. -/
lemma IsFused.add (hnodup : g.wires.Nodup) (h : IsFused f.written) (hfree : ∀ p, IsFree p f.written) :
    IsFused (f.add g).written ∧ ∀ p, IsFree p (f.add g).written := by
  cases hw : waits g with
  | true =>
    rw [written_add_of_waits hw]
    exact ⟨h, hfree⟩
  | false =>
    obtain ⟨hform, hrest⟩ := h.foldl_flush hnodup fun p _ => hfree p
    rw [add_of_not_waits hw]
    refine ⟨hform.cons hw, fun p => ?_⟩
    by_cases hp : p ∈ g.wires
    · exact isFree_cons_of_mem hp hw
    · exact (isFree_cons_of_notMem hp).2 (hrest p hp (hfree p))

/-- Taking in gates leaves nothing to fuse among those written, and every wire free for the next matrix; by induction over
the gates. -/
lemma IsFused.foldl_add (hnodup : ∀ g ∈ gates, g.wires.Nodup) (h : IsFused f.written) (hfree : ∀ p, IsFree p f.written) :
    IsFused (gates.foldl Fusion.add f).written ∧ ∀ p, IsFree p (gates.foldl Fusion.add f).written := by
  induction gates generalizing f with
  | nil => exact ⟨h, hfree⟩
  | cons g gates ih =>
    rw [List.forall_mem_cons] at hnodup
    obtain ⟨hform, hwires⟩ := h.add hnodup.1 hfree
    exact ih hnodup.2 hform hwires

end Pass

/-- Fusing leaves nothing to fuse. -/
theorem isFused_fuse (hnodup : ∀ g ∈ gates, g.wires.Nodup) (phase : ℝ) : IsFused (fuse gates phase).1 := by
  have hfree (p : ℕ) : IsFree p [] := fun _ hg => absurd hg (Option.not_mem_none _)
  obtain ⟨hform, hwires⟩ := IsFused.foldl_add (f := ⟨none, none, [], phase⟩) hnodup isFused_nil hfree
  have hflushed : IsFused ([1, 0].foldl Fusion.flush (gates.foldl Fusion.add ⟨none, none, [], phase⟩)).written :=
    (hform.foldl_flush (by decide) fun p _ => hwires p).1
  exact hflushed.reverse

end Fusion

section Spec

variable {n : ℕ} {gates : List (ElementaryGate ℝ)} {phase : ℝ}

/-- A gate on one of the two wires that does not wait is a rotation or a controlled-NOT. -/
lemma isRotation_or_isEntangler {g : ElementaryGate ℝ} {wire : ℕ} (hwire : wire < 2) (hmem : wire ∈ g.wires)
    (hg : waits g = false) : g.isRotation = true ∨ g.isEntangler = true := by
  cases g with
  | unitary p u =>
    obtain rfl := List.mem_singleton.1 hmem
    rw [waits_unitary, decide_eq_true hwire] at hg
    cases hg
  | rotation => exact .inl rfl
  | entangler => exact .inr rfl

/-- Fusing keeps the operator with its phase, if the matrices on the two wires are unitary and those that are turned into
phase are multiples of the identity. It keeps all other gates in their order. Afterwards no matrix on the two wires passes
for a multiple of the identity, and between two matrices on one of the wires there is a rotation or a controlled-NOT that
touches it. -/
theorem fuse_spec (hfits : ∀ g ∈ gates, g.Fits n)
    (hunitary : ∀ wire < 2, ∀ u, .unitary wire u ∈ gates → u.toMatrix ∈ unitaryGroup Bool ℂ)
    (hdrop : ∀ u ∈ fuseDropped gates phase, Fusion.IsExact u) :
    phasedOperator n (fuse gates phase) = phasedOperator n (gates, phase) ∧
    (fuse gates phase).1.filter (!waits ·) = gates.filter (!waits ·) ∧
    (∀ wire < 2, ∀ u, .unitary wire u ∈ (fuse gates phase).1 → u.isScalar = false) ∧
    ∀ wire < 2, ∀ u v xs ys zs, (fuse gates phase).1 = xs ++ .unitary wire u :: (ys ++ .unitary wire v :: zs) →
      ∃ g ∈ ys, (g.isRotation = true ∨ g.isEntangler = true) ∧ wire ∈ g.wires := by
  have hfused : Fusion.IsFused (fuse gates phase).1 :=
    Fusion.isFused_fuse (fun g hg => Fusion.nodup_wires (hfits g hg)) phase
  refine ⟨phasedOperator_fuse_of_waits hfits (fun g hg hw => ?_) hdrop, passing_fuse gates phase, hfused.notScalar,
    fun wire hwire u v xs ys zs hsplit => ?_⟩
  · cases g with
    | unitary wire u => exact hunitary wire (by simpa using hw) u hg
    | rotation => trivial
    | entangler => trivial
  · obtain ⟨g, hg, hmem, hpass⟩ := hfused.exists_between hwire hsplit
    exact ⟨g, hg, isRotation_or_isEntangler hwire hmem hpass, hmem⟩

/-- Two Hadamard matrices before a controlled-NOT, a matrix on a third wire that is not unitary, and a rotation between two
matrices on the second wire. -/
noncomputable def mixedGates : List (ElementaryGate ℝ) :=
  [.unitary 0 .hadamard, .unitary 0 .hadamard, .entangler 0 1, .unitary 2 (.ofReals 1 1 0 1), .unitary 1 .pauliX,
    .rotation 1 .z 1, .unitary 1 .pauliX]

/-- The exchange of the values of a wire is no multiple of the identity. -/
lemma isScalar_pauliX : (Matrix2.pauliX : Matrix2 ℝ).isScalar = false := by
  have hentry : ¬(Matrix2.pauliX : Matrix2 ℝ).b.norm < Matrix2.epsilon := by
    rw [Matrix2.pauliX, Matrix2.ofReals, Amplitude.norm_ofReal, Matrix2.epsilon]
    norm_num
  rw [Matrix2.isScalar, decide_eq_false hentry, Bool.false_and, Bool.false_and]

/-- Only the two Hadamard matrices are turned into phase. -/
lemma mixedGates_dropped : ∀ u ∈ fuseDropped mixedGates 1, Fusion.IsExact u := by
  have hsquare : Fusion.IsExact (.hadamard * .hadamard : Matrix2 ℝ) :=
    ⟨1, by rw [Matrix2.toMatrix_mul, Matrix2.hadamard_mul_hadamard, one_smul]⟩
  simpa [mixedGates, fuseDropped, Fusion.dropped, Fusion.droppedBy, Fusion.droppedAt, ElementaryGate.wires,
    Fusion.slot_add_of_lt, Fusion.slot_add_of_not_waits, Fusion.slot_empty, Fusion.join, isScalar_pauliX] using fun _ => hsquare

/-- The two Hadamard matrices cancel, and the rotation keeps the other two matrices apart. -/
theorem fuse_spec_mixedGates :
    (∀ g ∈ mixedGates, g.Fits 3) ∧ (∀ u ∈ fuseDropped mixedGates 1, Fusion.IsExact u) ∧
    phasedOperator 3 (fuse mixedGates 1) = phasedOperator 3 (mixedGates, 1) ∧
    ∀ wire < 2, ∀ u, .unitary wire u ∈ (fuse mixedGates 1).1 → u.isScalar = false := by
  have hfits : ∀ g ∈ mixedGates, g.Fits 3 := by
    simp [mixedGates, ElementaryGate.Fits]
  have hunitary : ∀ wire < 2, ∀ u, .unitary wire u ∈ mixedGates → u.toMatrix ∈ unitaryGroup Bool ℂ := by
    have hflip : (Matrix2.pauliX : Matrix2 ℝ).toMatrix ∈ unitaryGroup Bool ℂ := exchange_mem_unitary
    intro wire hwire u hu
    simp only [mixedGates, List.mem_cons, ElementaryGate.unitary.injEq, reduceCtorEq, List.not_mem_nil, or_false,
      false_or] at hu
    rcases hu with ⟨-, rfl⟩ | ⟨-, rfl⟩ | ⟨htwo, -⟩ | ⟨-, rfl⟩ | ⟨-, rfl⟩
    · exact Matrix2.hadamard_mem_unitary
    · exact Matrix2.hadamard_mem_unitary
    · omega
    · exact hflip
    · exact hflip
  obtain ⟨hop, -, hscalar, -⟩ := fuse_spec hfits hunitary mixedGates_dropped
  exact ⟨hfits, mixedGates_dropped, hop, hscalar⟩

end Spec

end CircuitSynthesis.TwoQubit
