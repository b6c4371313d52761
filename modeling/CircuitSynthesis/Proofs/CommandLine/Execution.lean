import Mathlib
import CircuitSynthesis.CommandLine.Execution

/-!
# Successful commands

`Returns` says that a command in progress goes on from a console with a value and a console, and `Finds` that it returns
certain values and writes nothing. There is a lemma for each way in which commands are composed, so that what a command needs
in order to return can be read off step by step. A run exits with zero if its command returns, and with one otherwise.
-/

namespace CircuitSynthesis.CommandLine

variable {R : Type} {α β ε : Type} {console console' middle : Console} {a : α} {b : β}

namespace Execution

/-- Whether a command in progress goes on from a console with a value and a console. -/
def Returns (x : Execution R α) (console : Console) (a : α) (console' : Console) : Prop :=
  x.run.run console = (.ok a, console')

section Returns

variable {x : Execution R α} {f : α → Execution R β}

/-- A pure execution returns its value and prints nothing. -/
lemma returns_pure_iff {a' : α} : Returns (pure a' : Execution R α) console a console' ↔ a' = a ∧ console' = console := by
  constructor
  · intro h
    obtain ⟨ha, hconsole⟩ := Prod.mk.inj h
    exact ⟨Except.ok.inj ha, hconsole.symm⟩
  · rintro ⟨rfl, rfl⟩
    rfl

/-- An execution that fails returns nothing. -/
lemma not_returns_throw {failure : Failure R} : ¬ Returns (throw failure : Execution R α) console a console' := by
  intro h
  cases (Prod.mk.inj h).1

/-- A composition goes on with its second part where the first one returns. -/
lemma returns_bind_iff : Returns (x >>= f) console b console' ↔
    ∃ a middle, Returns x console a middle ∧ Returns (f a) middle b console' := by
  unfold Returns
  rw [ExceptT.run_bind, StateT.run_bind]
  obtain ⟨r, middle⟩ : Except (Failure R) α × Console := x.run.run console
  cases r with
  | error failure =>
    refine iff_of_false (fun h => ?_) fun ⟨_, _, h, _⟩ => nomatch h
    cases (Prod.mk.inj h).1
  | ok a =>
    constructor
    · exact fun h => ⟨a, middle, rfl, h⟩
    · rintro ⟨_, _, h, hrest⟩
      cases h
      exact hrest

/-- Once it is known what the first part returns, only the second part matters. -/
lemma Returns.bind_iff (h : Returns x console a middle) :
    Returns (x >>= f) console b console' ↔ Returns (f a) middle b console' := by
  rw [returns_bind_iff]
  constructor
  · rintro ⟨_, _, h', hrest⟩
    cases Eq.trans (Eq.symm h) h'
    exact hrest
  · exact fun hrest => ⟨a, middle, h, hrest⟩

/-- Writing a line does not fail. -/
lemma returns_note_bind_iff {line : String} {f : Unit → Execution R β} : Returns (note line >>= f) console b console' ↔
    Returns (f ()) { console with progress := console.progress ++ [line] } b console' :=
  Returns.bind_iff rfl

/-- A line that is printed stands at the end of the output from then on. -/
lemma returns_print_bind_iff {line : String} {f : Unit → Execution R β} : Returns (print line >>= f) console b console' ↔
    Returns (f ()) { console with output := console.output ++ [line] } b console' :=
  Returns.bind_iff rfl

/-- A guard must not fire. -/
lemma returns_guard_bind_iff {c : Prop} [Decidable c] {failure : Failure R} {f : PUnit → Execution R β} :
    Returns (if c then throw failure >>= f else f ⟨⟩) console b console' ↔ ¬ c ∧ Returns (f ⟨⟩) console b console' := by
  split
  case isTrue hc =>
    refine iff_of_false (fun h => ?_) fun h => h.1 hc
    obtain ⟨_, _, hthrow, -⟩ := returns_bind_iff.1 h
    exact not_returns_throw hthrow
  case isFalse hc => exact (and_iff_right hc).symm

end Returns

/-- Whether a command in progress returns the values of a kind and no others, and writes nothing. -/
def Finds (x : Execution R α) (P : α → Prop) : Prop :=
  ∀ console a console', Returns x console a console' ↔ P a ∧ console' = console

section Finds

variable {x : Execution R α} {P : α → Prop} {f : α → Execution R β}

/-- A pure value is found, whatever the console. -/
lemma finds_pure (a : α) : Finds (pure a : Execution R α) (a = ·) := fun _ _ _ => returns_pure_iff

/-- A requirement finds the value of a result that is right. -/
lemma finds_require (failure : ε → Failure R) (r : Except ε α) : Finds (require failure r) (r = .ok ·) := by
  intro console a console'
  cases r with
  | error cause => exact iff_of_false not_returns_throw fun h => nomatch h.1
  | ok a' => exact returns_pure_iff.trans (and_congr_left' (Except.ok.injEq a' a).to_iff.symm)

/-- A demand finds the value of an option that is there. -/
lemma finds_demand (failure : Failure R) (o : Option α) : Finds (demand failure o) (o = some ·) := by
  intro console a console'
  cases o with
  | none => exact iff_of_false not_returns_throw fun h => nomatch h.1
  | some a' => exact returns_pure_iff.trans (and_congr_left' Option.some_inj.symm)

/-- What follows a search returns from some value that the search can find. -/
lemma Finds.bind_iff (h : Finds x P) :
    Returns (x >>= f) console b console' ↔ ∃ a, P a ∧ Returns (f a) console b console' := by
  rw [returns_bind_iff]
  simp only [h console, and_assoc, exists_and_left, exists_eq_left]

/-- Two searches in a row are a search. -/
lemma Finds.bind (h : Finds x P) {Q : α → β → Prop} (hf : ∀ a, Finds (f a) (Q a)) :
    Finds (x >>= f) fun b => ∃ a, P a ∧ Q a b := by
  intro console b console'
  rw [h.bind_iff, ← exists_and_right]
  simp only [hf _ console, and_assoc]

/-- What a search finds may be described in other words. -/
lemma Finds.imp (h : Finds x P) {Q : α → Prop} (hPQ : ∀ a, P a ↔ Q a) : Finds x Q :=
  fun console a console' => (h console a console').trans (and_congr_left' (hPQ a))

end Finds

end Execution

open Execution

section Run

variable [Scalar R] [DecimalText R] {s : Surroundings R} {c : Command}

/-- A run exits with zero if and only if its command returns. -/
theorem exit_eq_zero_iff : (c.run s).exit = 0 ↔ ∃ console, Returns (execute s c) .empty () console := by
  rw [Command.run]
  simp only [Returns]
  split
  case h_1 console h => exact iff_of_true rfl ⟨console, h⟩
  case h_2 failure console h =>
    rw [h]
    exact iff_of_false nofun fun ⟨_, h'⟩ => nomatch h'

/-- A command has no exit codes but zero and one. -/
lemma exit_eq_one_of_ne_zero (h : (c.run s).exit ≠ 0) : (c.run s).exit = 1 := by
  rw [Command.run] at h ⊢
  split at h
  case h_1 => exact absurd rfl h
  case h_2 => rfl

end Run

end CircuitSynthesis.CommandLine
