import Mathlib
import CircuitSynthesis.SignTable

/-!
# Outcomes of syntheses

The cache of sign tables is only ever filled with the table of each width, so it never changes an outcome.
`SignTableCache.Sound` is this invariant. `Synthesis.Gives` says that a synthesis has one outcome from every sound cache
and keeps the cache sound; it composes along the binds of a synthesis.
-/

namespace CircuitSynthesis

variable {R : Type} [Scalar R] {α β : Type}

namespace SignTableCache

/-- Every table in the cache is the table of its width. -/
def Sound (cache : SignTableCache R) : Prop := ∀ entry ∈ cache.tables, entry.2 = SignTable.build entry.1

/-- The empty cache is sound. -/
lemma sound_empty : (empty : SignTableCache R).Sound := by
  intro entry h
  cases h

omit [Scalar R] in
/-- A table that is found is in the cache. -/
lemma mem_of_lookup? {width : ℕ} {table : SignTable R width} {tables : List ((width : ℕ) × SignTable R width)}
    (h : lookup? width tables = some table) : ⟨width, table⟩ ∈ tables := by
  induction tables with
  | nil => cases h
  | cons entry tables ih =>
    obtain ⟨w, t⟩ := entry
    rw [lookup?] at h
    split at h
    case isTrue hw =>
      subst hw
      cases h
      exact List.mem_cons_self
    case isFalse => exact List.mem_cons_of_mem _ (ih h)

/-- Looking up a table finds the table of its width and keeps the cache sound. -/
lemma Sound.get {cache : SignTableCache R} (h : cache.Sound) (width : ℕ) :
    (cache.get width).1 = SignTable.build width ∧ (cache.get width).2.Sound := by
  rw [SignTableCache.get]
  split
  case h_1 table hfound => exact ⟨h _ (mem_of_lookup? hfound), h⟩
  case h_2 =>
    refine ⟨rfl, fun entry hentry => ?_⟩
    rcases List.mem_append.1 hentry with hold | hnew
    · exact h entry hold
    · cases List.mem_singleton.1 hnew
      rfl

end SignTableCache

namespace Synthesis

/-- From every sound cache the outcome is `r`, and the cache is left sound. -/
def Gives (s : Synthesis R α) (r : Except (SynthesisError R) α) : Prop :=
  ∀ cache : SignTableCache R, cache.Sound → ∃ cache', (s.run cache).run = (r, cache') ∧ cache'.Sound

/-- A value gives itself. -/
lemma gives_pure (a : α) : (pure a : Synthesis R α).Gives (.ok a) := fun cache h => ⟨cache, rfl, h⟩

/-- A result that does not use the cache gives itself. -/
lemma gives_lift {s r : Except (SynthesisError R) α} (hs : s = r) : (liftM s : Synthesis R α).Gives r :=
  fun cache h => ⟨cache, hs ▸ rfl, h⟩

/-- A table gives the one of its width. -/
lemma gives_table (width : ℕ) : (table width : Synthesis R _).Gives (.ok (SignTable.build width)) := by
  intro cache h
  obtain ⟨htable, hsound⟩ := h.get width
  refine ⟨(cache.get width).2, ?_, hsound⟩
  rw [← htable]
  rfl

/-- A synthesis that goes on after a result. -/
lemma Gives.bind {s : Synthesis R α} {f : α → Synthesis R β} {a : α} {r : Except (SynthesisError R) β}
    (hs : s.Gives (.ok a)) (hf : (f a).Gives r) : (s >>= f).Gives r := by
  intro cache h
  obtain ⟨cache₁, hrun₁, h₁⟩ := hs cache h
  obtain ⟨cache₂, hrun₂, h₂⟩ := hf cache₁ h₁
  refine ⟨cache₂, ?_, h₂⟩
  rw [← hrun₂]
  change (ExceptT.bindCont f (s.run cache).run.1 (s.run cache).run.2).run = _
  rw [hrun₁]
  rfl

/-- Nothing is done after a failure. -/
lemma Gives.bind_error {s : Synthesis R α} {f : α → Synthesis R β} {e : SynthesisError R} (hs : s.Gives (.error e)) :
    (s >>= f).Gives (.error e) := by
  intro cache h
  obtain ⟨cache', hrun, h'⟩ := hs cache h
  refine ⟨cache', ?_, h'⟩
  change (ExceptT.bindCont f (s.run cache).run.1 (s.run cache).run.2).run = _
  rw [hrun]
  rfl

end Synthesis

end CircuitSynthesis
