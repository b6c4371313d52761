import Mathlib

/-!
# Loops that may stop

Of two steps that may fail, both have succeeded when the whole has. A list is converted by a function that may fail if and
only if each of its elements is. A loop whose steps may fail runs through if its steps do as long as an invariant lasts, and
a loop that ran through was not stopped by any of its steps.
-/

namespace CircuitSynthesis

variable {α β : Type}

section Checks

variable {ε : Type} {a : α}

/-- A step that comes first has given a value when the whole succeeds. -/
lemma bind_eq_ok_iff {r : Except ε β} {f : β → Except ε α} :
    (r >>= f) = .ok a ↔ ∃ b, r = .ok b ∧ f b = .ok a := by
  cases r with
  | error e => exact iff_of_false nofun fun ⟨_, h, _⟩ => nomatch h
  | ok b => exact ⟨fun h => ⟨b, rfl, h⟩, fun ⟨_, hb, h⟩ => Except.ok.inj hb ▸ h⟩

/-- A check that comes first has passed when the whole has. -/
lemma check_bind_eq_ok_iff {r : Except ε Unit} {f : Unit → Except ε α} :
    (r >>= f) = .ok a ↔ r = .ok () ∧ f () = .ok a := bind_eq_ok_iff.trans ⟨fun ⟨_, h⟩ => h, fun h => ⟨(), h⟩⟩

/-- A guard that comes first has not fired when the whole succeeds. -/
lemma guard_bind_eq_ok_iff {c : Prop} [Decidable c] {e : ε} {f : PUnit → Except ε α} :
    (if c then throw e >>= f else f ⟨⟩) = .ok a ↔ ¬ c ∧ f ⟨⟩ = .ok a := by
  split
  case isTrue hc => exact iff_of_false nofun fun h => h.1 hc
  case isFalse hc => exact (and_iff_right hc).symm

/-- A guard passes exactly if its condition fails. -/
lemma guard_eq_ok_iff {c : Prop} [Decidable c] {e : ε} : (if c then throw e else pure () : Except ε Unit) = .ok () ↔ ¬ c := by
  split
  case isTrue hc => exact iff_of_false nofun fun h => h hc
  case isFalse hc => exact iff_of_true rfl hc

end Checks

/-- A list is converted if and only if each of its elements is. -/
lemma mapM_eq_some_iff_map_eq {f : α → Option β} {xs : List α} {ys : List β} :
    xs.mapM f = some ys ↔ xs.map f = ys.map some := by
  induction xs generalizing ys with
  | nil => cases ys <;> simp
  | cons x xs ih =>
    rw [List.mapM_cons]
    cases ys with
    | nil => simp [Option.bind_eq_some_iff]
    | cons y ys => simp [Option.bind_eq_some_iff, ih]

/-- A map that is defined everywhere on a list is defined on the list. -/
lemma mapM_eq_some {f : α → β} {f? : α → Option β} {xs : List α} (h : ∀ x ∈ xs, f? x = some (f x)) :
    xs.mapM f? = some (xs.map f) := by
  rw [mapM_eq_some_iff_map_eq, List.map_map]
  exact List.map_congr_left h

/-- A loop that may stop runs through if its steps do, as long as an invariant lasts. -/
lemma foldlM_eq_some {step : β → α → β} {step? : β → α → Option β} {l : List α} {P : β → Prop} {b : β}
    (hb : P b) (h : ∀ b, P b → ∀ a ∈ l, step? b a = some (step b a) ∧ P (step b a)) :
    l.foldlM step? b = some (l.foldl step b) := by
  induction l generalizing b with
  | nil => rfl
  | cons a l ih =>
    obtain ⟨hstep, hnext⟩ := h b hb a List.mem_cons_self
    rw [List.foldlM_cons, hstep, List.foldl_cons]
    exact ih hnext fun b hb a' ha' => h b hb a' (List.mem_cons_of_mem a ha')

/-- A loop that ran through was never stopped by what its steps check. -/
lemma forall_of_foldlM_eq_some {step? : β → α → Option β} {l : List α} {P : β → Prop} {Q : α → Prop} {b b' : β}
    (hb : P b) (h : ∀ b, P b → ∀ a b', step? b a = some b' → Q a ∧ P b') (hfold : l.foldlM step? b = some b') :
    (∀ a ∈ l, Q a) ∧ P b' := by
  induction l generalizing b with
  | nil => exact ⟨fun _ => nofun, Option.some.inj hfold ▸ hb⟩
  | cons a l ih =>
    rw [List.foldlM_cons, Option.bind_eq_bind, Option.bind_eq_some_iff] at hfold
    obtain ⟨b₁, hstep, hrest⟩ := hfold
    obtain ⟨ha, hb₁⟩ := h b hb a b₁ hstep
    obtain ⟨hall, hb'⟩ := ih hb₁ hrest
    exact ⟨List.forall_mem_cons.2 ⟨ha, hall⟩, hb'⟩

end CircuitSynthesis
