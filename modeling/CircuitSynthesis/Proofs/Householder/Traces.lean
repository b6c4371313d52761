import Mathlib
import CircuitSynthesis.Proofs.Householder.Column

/-!
# Traces of a reduction

A step that succeeds drops what is below the diagonal of a column that counts as clear, or reflects the matrix. `Trace`
records the steps between two reducers with one constructor for each kind; a run of steps that succeeds is a trace, whatever
the matrix (`trace_of_steps`). By induction over the trace its reflectors clear their columns one after the other, the
product of the reflections takes the last matrix back to the first if nothing but zeros was dropped (`Trace.eq_mul`).
-/

namespace CircuitSynthesis

open Matrix

namespace Householder

section Runs

variable {R : Type} {m n : ℕ} {α β : Type}

/-- A reduction that reads its state is one that is handed it. -/
lemma run_get_bind (f : Reducer R m n → Reduction R m n α) (q : Reducer R m n) : (get >>= f).run q = (f q).run q := rfl

variable {s : Reduction R m n α} {f : α → Reduction R m n β} {q q' : Reducer R m n}

/-- After a step that succeeds the reduction goes on from where the step left it. -/
lemma run_bind {a : α} (h : (s.run q).run = (.ok a, q')) : ((s >>= f).run q).run = ((f a).run q').run := by
  change (ExceptT.bindCont f (s.run q).run.1 (s.run q).run.2).run = _
  rw [h]
  rfl

/-- Nothing is done after a step that fails. -/
lemma run_bind_error {e : SynthesisError R} (h : (s.run q).run = (.error e, q')) :
    ((s >>= f).run q).run = (.error e, q') := by
  change (ExceptT.bindCont f (s.run q).run.1 (s.run q).run.2).run = _
  rw [h]
  rfl

/-- A reduction that succeeds went on after a result. -/
lemma exists_of_run_bind_eq_ok {b : β} (h : ((s >>= f).run q).run = (.ok b, q')) :
    ∃ a q₁, (s.run q).run = (.ok a, q₁) ∧ ((f a).run q₁).run = (.ok b, q') := by
  cases hs : (s.run q).run with
  | mk result q₁ =>
    cases result with
    | ok a => exact ⟨a, q₁, rfl, (run_bind hs).symm.trans h⟩
    | error e =>
      rw [run_bind_error hs] at h
      exact absurd (Prod.mk.inj h).1 (by simp)

end Runs

/-- A column of a product is the left factor applied to that column. -/
lemma col_mul {l m n : ℕ} (A : Matrix (Fin l) (Fin m) ℂ) (B : Matrix (Fin m) (Fin n) ℂ) (c : Fin n) :
    (A * B).col c = A *ᵥ B.col c := rfl

section Directions

variable {N : ℕ}

/-- The product of the reflections along some vectors, the first of them on the left. -/
def reflections (us : List (Fin N → ℂ)) : Matrix (Fin N) (Fin N) ℂ := (us.map reflection).prod

@[simp] lemma reflections_nil : reflections ([] : List (Fin N → ℂ)) = 1 := rfl

@[simp] lemma reflections_cons (u : Fin N → ℂ) (us : List (Fin N → ℂ)) :
    reflections (u :: us) = reflection u * reflections us := rfl

/-- Reflections in two parts multiply. -/
@[simp] lemma reflections_append (us vs : List (Fin N → ℂ)) : reflections (us ++ vs) = reflections us * reflections vs := by
  rw [reflections, List.map_append, List.prod_append, reflections, reflections]

/-- The vectors of the reflectors among what some steps returned. -/
def directions (rs : List (Option (Reflector ℝ N))) : List (Fin N → ℂ) := (rs.filterMap id).map Reflector.direction

@[simp] lemma directions_nil : directions ([] : List (Option (Reflector ℝ N))) = [] := rfl

@[simp] lemma directions_none_cons (rs : List (Option (Reflector ℝ N))) : directions (none :: rs) = directions rs := rfl

@[simp] lemma directions_some_cons (r : Reflector ℝ N) (rs : List (Option (Reflector ℝ N))) :
    directions (some r :: rs) = r.direction :: directions rs := rfl

end Directions

namespace Reducer

section Step

variable {m n : ℕ} {q q' : Reducer ℝ m n}

/-- Whether every column that a number of steps skips is zero below the diagonal. -/
def SkipsExactly : ℕ → Reducer ℝ m n → Prop
  | 0, _ => True
  | count + 1, q =>
    ((step.run q).run.1 = .ok none → ∀ i c, c.val = q.next → q.next < i.val → q.work.toMatrix i c = 0) ∧
      SkipsExactly count (step.run q).run.2

/-- The reducer after a column that counts as clear. -/
noncomputable def skipped (q : Reducer ℝ m n) : Reducer ℝ m n := ⟨clearBelow q.next q.work, q.next + 1⟩

/-- The reducer after a column that is reflected. -/
noncomputable def reflected (q : Reducer ℝ m n) (hm : q.next < m) (hn : q.next < n) : Reducer ℝ m n :=
  ⟨reflectFrom ⟨q.next, hn⟩ (columnReflector q.work hm hn).vector.get (reducedEntry q.work hm hn) q.work, q.next + 1⟩

/-- A step that can reduce its column moves on to the next. -/
lemma step_eq {R : Type} [Scalar R] {q : Reducer R m n} (hm : q.next < m) (hn : q.next < n)
    {next : Dense (Amplitude R) m n} {r : Option (Reflector R m)} (h : reduceColumn q.work q.next hm hn = .ok (next, r)) :
    (step.run q).run = (.ok r, ⟨next, q.next + 1⟩) := by
  rw [step, run_get_bind, dif_pos ⟨hm, hn⟩, h]
  rfl

variable (hm : q.next < m) (hn : q.next < n)

include hm in
/-- A step over a column that counts as clear skips it. -/
lemma step_of_skips (hlong : minColumnNorm ≤ columnNorm q.work hn) (hskip : Skips q.work hn) :
    (step.run q).run = (.ok none, q.skipped) :=
  step_eq hm hn (reduceColumn_of_skips hm hn hlong hskip)

/-- A step over any other column that is long enough reflects it. -/
lemma step_of_not_skips (hlong : minColumnNorm ≤ columnNorm q.work hn) (hskip : ¬Skips q.work hn) :
    (step.run q).run = (.ok (some (columnReflector q.work hm hn)), q.reflected hm hn) :=
  step_eq hm hn (reduceColumn_of_not_skips hm hn hlong hskip)

/-- What a step that succeeds did: the column was long enough, and it was skipped or reflected. -/
lemma step_cases {r : Option (Reflector ℝ m)} (h : (step.run q).run = (.ok r, q')) :
    ∃ (hm : q.next < m) (hn : q.next < n), minColumnNorm ≤ columnNorm q.work hn ∧
      (Skips q.work hn ∧ r = none ∧ q' = q.skipped ∨
        ¬Skips q.work hn ∧ r = some (columnReflector q.work hm hn) ∧ q' = q.reflected hm hn) := by
  by_cases hleft : q.next < m ∧ q.next < n
  · obtain ⟨hm, hn⟩ := hleft
    refine ⟨hm, hn, ?_⟩
    by_cases hlong : minColumnNorm ≤ columnNorm q.work hn
    · refine ⟨hlong, ?_⟩
      by_cases hskip : Skips q.work hn
      · rw [step_of_skips hm hn hlong hskip] at h
        obtain ⟨hr, hq⟩ := Prod.mk.inj h
        exact .inl ⟨hskip, (Except.ok.inj hr).symm, hq.symm⟩
      · rw [step_of_not_skips hm hn hlong hskip] at h
        obtain ⟨hr, hq⟩ := Prod.mk.inj h
        exact .inr ⟨hskip, (Except.ok.inj hr).symm, hq.symm⟩
    · rw [step, run_get_bind, dif_pos ⟨hm, hn⟩, reduceColumn_of_short hm hn (not_le.1 hlong)] at h
      exact absurd (Prod.mk.inj h).1 (by simp)
  · rw [step, run_get_bind, dif_neg hleft] at h
    exact absurd (Prod.mk.inj h).1 (by simp)

end Step

section Trace

variable {m n : ℕ}

/-- The steps that lead from one reducer to another, with what they return. -/
inductive Trace : Reducer ℝ m n → List (Option (Reflector ℝ m)) → Reducer ℝ m n → Prop
  | stop (q : Reducer ℝ m n) : Trace q [] q
  /-- A column that counts as clear. -/
  | skip {q last : Reducer ℝ m n} {rs : List (Option (Reflector ℝ m))} (hm : q.next < m) (hn : q.next < n)
      (hlong : minColumnNorm ≤ columnNorm q.work hn) (hskip : Skips q.work hn) (rest : Trace q.skipped rs last) :
      Trace q (none :: rs) last
  /-- A column that is reflected. -/
  | reflect {q last : Reducer ℝ m n} {rs : List (Option (Reflector ℝ m))} (hm : q.next < m) (hn : q.next < n)
      (hlong : minColumnNorm ≤ columnNorm q.work hn) (hskip : ¬Skips q.work hn) (rest : Trace (q.reflected hm hn) rs last) :
      Trace q (some (columnReflector q.work hm hn) :: rs) last

/-- Steps that succeed leave a trace, with an entry for each step. -/
lemma trace_of_steps {count : ℕ} {q last : Reducer ℝ m n} {rs : List (Option (Reflector ℝ m))}
    (h : ((steps count).run q).run = (.ok rs, last)) : Trace q rs last ∧ rs.length = count := by
  induction count generalizing q rs with
  | zero =>
    obtain ⟨hrs, rfl⟩ := Prod.mk.inj h
    rw [← Except.ok.inj hrs]
    exact ⟨.stop q, rfl⟩
  | succ count ih =>
    obtain ⟨r, q₁, hstep, h⟩ := exists_of_run_bind_eq_ok h
    obtain ⟨rs', q₂, hsteps, h⟩ := exists_of_run_bind_eq_ok h
    obtain ⟨hrs, rfl⟩ := Prod.mk.inj h
    rw [← Except.ok.inj hrs]
    -- the first step puts a constructor in front of the trace of the others
    obtain ⟨htrace, rfl⟩ := ih hsteps
    obtain ⟨hm, hn, hlong, ⟨hskip, rfl, rfl⟩ | ⟨hskip, rfl, rfl⟩⟩ := step_cases hstep
    · exact ⟨.skip hm hn hlong hskip htrace, rfl⟩
    · exact ⟨.reflect hm hn hlong hskip htrace, rfl⟩

/-- Whether the columns before the next one are zero below the diagonal. -/
def IsCleared (q : Reducer ℝ m n) : Prop := ∀ i c, c.val < q.next → c.val < i.val → q.work.toMatrix i c = 0

/-- To begin with there is nothing to clear. -/
lemma isCleared_ofDense (A : Dense (Amplitude ℝ) m n) : (ofDense A).IsCleared := fun _ _ h => absurd h (Nat.not_lt_zero _)

section Cleared

variable {q : Reducer ℝ m n}

/-- Skipping a column clears it below the diagonal and leaves the rest. -/
lemma toMatrix_skipped (q : Reducer ℝ m n) (i : Fin m) (c : Fin n) :
    q.skipped.work.toMatrix i c = if c.val = q.next ∧ q.next < i.val then 0 else q.work.toMatrix i c := by
  rw [skipped, clearBelow, Dense.toMatrix_ofFn, Matrix.of_apply, apply_ite Amplitude.toComplex, Amplitude.toComplex_zero]
  rfl

/-- Skipping a column keeps the earlier ones clear. -/
lemma IsCleared.skipped (h : q.IsCleared) : q.skipped.IsCleared := by
  intro i c hc hi
  rw [toMatrix_skipped]
  split
  · rfl
  · next hnot => exact h i c (by have : c.val < q.next + 1 := hc; omega) hi

/-- Reflecting the part of the matrix that is left reflects the whole. -/
lemma IsCleared.toMatrix_reflected (h : q.IsCleared) (hm : q.next < m) (hn : q.next < n)
    (hlong : minColumnNorm ≤ columnNorm q.work hn) : (q.reflected hm hn).work.toMatrix =
      reflection (columnReflector q.work hm hn).direction * q.work.toMatrix :=
  toMatrix_reduced hm (fun i c hc hi => h i c hc (hc.trans_le hi)) (minColumnNorm_pos.trans_le hlong)

/-- Reflecting a column keeps the earlier ones clear. -/
lemma IsCleared.reflected (h : q.IsCleared) (hm : q.next < m) (hn : q.next < n) : (q.reflected hm hn).IsCleared := by
  intro i c hc hi
  rcases Nat.lt_succ_iff_lt_or_eq.1 hc with hc | hc
  · -- only the columns from the next one on are touched
    have hkeep : (q.reflected hm hn).work.toMatrix i c = q.work.toMatrix i c := by
      rw [Reducer.reflected, reflectFrom, Dense.toMatrix_ofFn, Matrix.of_apply, if_pos (.inr hc)]
      rfl
    rw [hkeep, h i c hc hi]
  · obtain rfl : c = ⟨q.next, hn⟩ := Fin.ext hc
    exact reduced_below hi

end Cleared

namespace Trace

variable {q last : Reducer ℝ m n} {rs : List (Option (Reflector ℝ m))}

/-- A trace moves on by a column for each of its entries. -/
lemma next_eq (h : Trace q rs last) : last.next = q.next + rs.length := by
  induction h with
  | stop q => rfl
  | @skip q last rs hm hn hlong hskip rest ih => exact ih.trans (Nat.add_right_comm q.next 1 rs.length)
  | @reflect q last rs hm hn hlong hskip rest ih => exact ih.trans (Nat.add_right_comm q.next 1 rs.length)

/-- A trace keeps the columns that it is done with clear. -/
lemma isCleared (h : Trace q rs last) (hq : q.IsCleared) : last.IsCleared := by
  induction h with
  | stop q => exact hq
  | skip hm hn hlong hskip rest ih => exact ih hq.skipped
  | reflect hm hn hlong hskip rest ih => exact ih (hq.reflected hm hn)

/-- Every reflector that is returned is that of the column whose turn it is, in some matrix. -/
lemma exists_columnReflector (h : Trace q rs last) {k : ℕ} {r : Reflector ℝ m} (hr : rs[k]? = some (some r)) :
    ∃ (work : Dense (Amplitude ℝ) m n) (hm : q.next + k < m) (hn : q.next + k < n),
      minColumnNorm ≤ columnNorm work hn ∧ ¬Skips work hn ∧ r = columnReflector work hm hn := by
  induction h generalizing k with
  | stop q => exact absurd hr (by simp)
  | @skip q last rs hm hn hlong hskip rest ih =>
    cases k with
    | zero => exact absurd hr (by simp)
    | succ k =>
      have hadd : q.skipped.next + k = q.next + (k + 1) := Nat.add_right_comm q.next 1 k
      simpa only [hadd] using ih hr
  | @reflect q last rs hm hn hlong hskip rest ih =>
    cases k with
    | zero => exact ⟨q.work, hm, hn, hlong, hskip, (Option.some.inj (Option.some.inj hr)).symm⟩
    | succ k =>
      have hadd : (q.reflected hm hn).next + k = q.next + (k + 1) := Nat.add_right_comm q.next 1 k
      simpa only [hadd] using ih hr

/-- Step `k` clears column `k`, counted from the first column. -/
lemma clears (h : Trace q rs last) {k : ℕ} {r : Reflector ℝ m} (hr : rs[k]? = some (some r)) : r.Clears (q.next + k) := by
  obtain ⟨work, hm, hn, hlong, -, rfl⟩ := h.exists_columnReflector hr
  exact clears_columnReflector hm (minColumnNorm_pos.trans_le hlong)

/-- The product of the reflections of a trace is unitary. -/
lemma reflections_mem_unitary (h : Trace q rs last) : reflections (directions rs) ∈ unitaryGroup (Fin m) ℂ := by
  induction h with
  | stop q => exact one_mem _
  | skip hm hn hlong hskip rest ih => exact ih
  | reflect hm hn hlong hskip rest ih =>
    exact mul_mem (reflection_mem_unitary (clears_columnReflector hm (minColumnNorm_pos.trans_le hlong)).unit) ih

/-- The reflections take a column that was clear from the start back to itself. -/
lemma col_eq_of_lt (h : Trace q rs last) (hq : q.IsCleared) {c : Fin n} (hc : c.val < q.next) :
    (reflections (directions rs) * last.work.toMatrix).col c = q.work.toMatrix.col c := by
  induction h with
  | stop q => rw [directions_nil, reflections_nil, Matrix.one_mul]
  | @skip q last rs hm hn hlong hskip rest ih =>
    rw [directions_none_cons, ih hq.skipped (hc.trans (Nat.lt_succ_self _))]
    ext i
    rw [col_apply, col_apply, toMatrix_skipped, if_neg fun h => hc.ne h.1]
  | @reflect q last rs hm hn hlong hskip rest ih =>
    -- the step reflected the whole matrix, and the reflection in front undoes it
    have hunit := (clears_columnReflector hm (minColumnNorm_pos.trans_le hlong)).unit
    rw [directions_some_cons, reflections_cons, Matrix.mul_assoc, col_mul, ih (hq.reflected hm hn) (hc.trans (Nat.lt_succ_self _)),
      hq.toMatrix_reflected hm hn hlong, ← col_mul, ← Matrix.mul_assoc, reflection_mul_self hunit, Matrix.one_mul]

/-- If all columns that were skipped were zero below the diagonal, the reflections take the last matrix back to the first. -/
lemma eq_mul (h : Trace q rs last) (hq : q.IsCleared) (hexact : SkipsExactly rs.length q) :
    q.work.toMatrix = reflections (directions rs) * last.work.toMatrix := by
  induction h with
  | stop q => exact (Matrix.one_mul _).symm
  | @skip q last rs hm hn hlong hskip rest ih =>
    obtain ⟨hzero, hrest⟩ := hexact
    rw [step_of_skips hm hn hlong hskip] at hzero hrest
    rw [directions_none_cons, ← ih hq.skipped hrest]
    exact (toMatrix_clearBelow (hzero rfl)).symm
  | @reflect q last rs hm hn hlong hskip rest ih =>
    have hunit := (clears_columnReflector hm (minColumnNorm_pos.trans_le hlong)).unit
    have hrest := hexact.2
    rw [step_of_not_skips hm hn hlong hskip] at hrest
    rw [directions_some_cons, reflections_cons, Matrix.mul_assoc, ← ih (hq.reflected hm hn) hrest,
      hq.toMatrix_reflected hm hn hlong, ← Matrix.mul_assoc, reflection_mul_self hunit, Matrix.one_mul]

end Trace

end Trace

end Reducer

end Householder

end CircuitSynthesis
