import Mathlib
import CircuitSynthesis.TwoQubit.Fusion

/-!
# What the pass writes

Flushing a wire writes one matrix at most (`written_flush`), and taking a gate writes that gate after its wires are flushed,
unless it is a matrix that waits (`written_add`). Gates of any kind that matrices on the two wires are not are therefore kept
in their order (`filter_fuse`), and as many of them as there were.
-/

namespace CircuitSynthesis.TwoQubit

variable {R : Type} [Scalar R] {p : ElementaryGate R → Bool}

namespace Fusion

/-- Flushing writes one matrix at most, on one of the two wires, which does not pass for a multiple of the identity. -/
lemma written_flush (f : Fusion R) (wire : ℕ) : (f.flush wire).written = f.written ∨
    wire < 2 ∧ ∃ u, u.isScalar = false ∧ (f.flush wire).written = .unitary wire u :: f.written := by
  have hrelease (f : Fusion R) (wire : ℕ) (o : Option (Matrix2 R)) : (f.release wire o).written = f.written ∨
      ∃ u, u.isScalar = false ∧ (f.release wire o).written = .unitary wire u :: f.written := by
    cases o with
    | none => exact .inl rfl
    | some u =>
      rw [release]
      split
      case isTrue => exact .inl rfl
      case isFalse hscalar => exact .inr ⟨u, Bool.eq_false_iff.2 hscalar, rfl⟩
  rw [flush]
  split_ifs with hlow hhigh
  · subst hlow
    exact (hrelease { f with low := none } 0 f.low).imp_right (And.intro Nat.two_pos)
  · subst hhigh
    exact (hrelease { f with high := none } 1 f.high).imp_right (And.intro Nat.one_lt_two)
  · exact .inl rfl

/-- A matrix on one of the two wires is not written yet, and any other gate is written after its wires are flushed. -/
lemma written_add (f : Fusion R) (g : ElementaryGate R) :
    (∃ wire < 2, ∃ u, g = .unitary wire u) ∧ (f.add g).written = f.written ∨
      (f.add g).written = g :: (g.wires.foldl Fusion.flush f).written := by
  cases g with
  | rotation => exact .inr rfl
  | entangler => exact .inr rfl
  | unitary wire u =>
    rcases lt_or_ge wire 2 with hwire | hwire
    · refine .inl ⟨⟨wire, hwire, u, rfl⟩, ?_⟩
      interval_cases wire <;> rfl
    · obtain ⟨wire, rfl⟩ := Nat.exists_eq_add_of_le' hwire
      exact .inr rfl

section Filter

variable (hp : ∀ wire < 2, ∀ u, p (.unitary wire u) = false)

include hp

/-- Flushing a wire writes nothing that counts, where matrices on the two wires do not. -/
lemma filter_flush (f : Fusion R) (wire : ℕ) : (f.flush wire).written.filter p = f.written.filter p := by
  rcases written_flush f wire with hsame | ⟨hwire, u, -, hwritten⟩
  · rw [hsame]
  · rw [hwritten, List.filter_cons_of_neg (Bool.not_eq_true _ ▸ hp wire hwire u)]

/-- Flushing several wires writes nothing that counts. -/
lemma filter_foldl_flush (f : Fusion R) (wires : List ℕ) :
    (wires.foldl Fusion.flush f).written.filter p = f.written.filter p := by
  induction wires generalizing f with
  | nil => rfl
  | cons wire wires ih => rw [List.foldl_cons, ih, filter_flush hp]

/-- Taking in a gate writes it if it counts, and nothing else that does. -/
lemma filter_add (f : Fusion R) (g : ElementaryGate R) : (f.add g).written.filter p = (g :: f.written).filter p := by
  rcases written_add f g with ⟨⟨wire, hwire, u, rfl⟩, hsame⟩ | hwritten
  · rw [hsame, List.filter_cons_of_neg (Bool.not_eq_true _ ▸ hp wire hwire u)]
  · rw [hwritten, List.filter_cons, List.filter_cons, filter_foldl_flush hp]

/-- Taking in gates writes those that count, in their order. -/
lemma filter_foldl_add (f : Fusion R) (gates : List (ElementaryGate R)) :
    (gates.foldl add f).written.filter p = (gates.reverse ++ f.written).filter p := by
  induction gates generalizing f with
  | nil => rfl
  | cons g gates ih =>
    rw [List.foldl_cons, ih, List.filter_append, filter_add hp, ← List.filter_append, List.reverse_cons, List.append_assoc,
      List.singleton_append]

end Filter

end Fusion

variable {gates : List (ElementaryGate R)} {phase : R}

/-- Fusing keeps the gates of a kind that matrices on the two wires are not, in their order. -/
theorem filter_fuse (hp : ∀ wire < 2, ∀ u, p (.unitary wire u) = false) : (fuse gates phase).1.filter p = gates.filter p := by
  rw [fuse, List.filter_reverse, Fusion.filter_flush hp, Fusion.filter_flush hp, Fusion.filter_foldl_add hp, List.append_nil,
    List.filter_reverse, List.reverse_reverse]

/-- Fusing keeps the number of gates of a kind that matrices are not. -/
lemma countP_fuse (hp : ∀ wire u, p (.unitary wire u) = false) : (fuse gates phase).1.countP p = gates.countP p := by
  rw [List.countP_eq_length_filter, filter_fuse fun wire _ => hp wire, ← List.countP_eq_length_filter]

end CircuitSynthesis.TwoQubit
