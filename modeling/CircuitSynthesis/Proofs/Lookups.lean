import Mathlib
import CircuitSynthesis.Proofs.Synthesis

/-!
# The sign tables that a synthesis looks up

A synthesis touches the cache of sign tables only by looking tables up. `Synthesis.Follows` says that from every sound
cache it returns one and the same result and leaves behind the cache with the tables of a list of widths looked up, so
that the cache only grows (`prefix_lookUp`) and its widths are known (`mem_widths_lookUp`). `Synthesis.Yields` is the form
in which this is proved along a synthesis: the result, if no number overflows, has a property that may speak of the
widths, and it composes along binds.
-/

namespace CircuitSynthesis

variable {R : Type} {α β : Type}

/-- Whether a synthesis failed since a number left the finite range. -/
def SynthesisError.IsOverflow : SynthesisError R → Prop
  | .overflow _ _ _ => True
  | _ => False

/-- A result with a property, or an overflow. -/
def Settles (P : α → Prop) : Except (SynthesisError R) α → Prop
  | .ok a => P a
  | .error e => e.IsOverflow

namespace Settles

variable {P : α → Prop} {Q : β → Prop} {r : Except (SynthesisError R) α}

/-- A weaker property of the result settles as well. -/
lemma imp (h : Settles P r) {P' : α → Prop} (himp : ∀ a, P a → P' a) : Settles P' r := by
  cases r with
  | error e => exact h
  | ok a => exact himp a h

/-- If what follows a result settles, so does the whole. -/
lemma bind (h : Settles P r) {f : α → Except (SynthesisError R) β} (hf : ∀ a, P a → Settles Q (f a)) :
    Settles Q (r >>= f) := by
  cases r with
  | error e => exact h
  | ok a => exact hf a h

end Settles

variable [Scalar R]

namespace SignTableCache

variable {cache : SignTableCache R} {ws ws' : List ℕ} {w : ℕ}

/-- The widths of the tables, in the order in which they were built. -/
def widths (cache : SignTableCache R) : List ℕ := cache.tables.map Sigma.fst

/-- The cache once the tables of some widths have been looked up, one after the other. -/
def lookUp (cache : SignTableCache R) (ws : List ℕ) : SignTableCache R := ws.foldl (fun cache w => (cache.get w).2) cache

/-- The first table looked up comes before the others. -/
lemma lookUp_cons : cache.lookUp (w :: ws) = (cache.get w).2.lookUp ws := rfl

/-- Tables may be looked up in two goes. -/
lemma lookUp_append : cache.lookUp (ws ++ ws') = (cache.lookUp ws).lookUp ws' := List.foldl_append

omit [Scalar R] in
/-- A table is missing exactly if its width is. -/
lemma lookup?_eq_none_iff {tables : List ((width : ℕ) × SignTable R width)} :
    lookup? w tables = none ↔ w ∉ tables.map Sigma.fst := by
  induction tables with
  | nil => simp [lookup?]
  | cons entry tables ih =>
    obtain ⟨v, table⟩ := entry
    rw [lookup?, List.map_cons, List.mem_cons, not_or]
    split
    case isTrue hv =>
      subst hv
      simp
    case isFalse hv => rw [ih, and_iff_right (Ne.symm hv)]

/-- A table that is there already is not built again. -/
lemma get_of_mem (h : w ∈ cache.widths) : (cache.get w).2 = cache := by
  rw [get]
  split
  case h_1 => rfl
  case h_2 hnone => exact absurd h (lookup?_eq_none_iff.1 hnone)

/-- A new table comes after the old ones. -/
lemma get_of_notMem (h : w ∉ cache.widths) : (cache.get w).2 = ⟨cache.tables ++ [⟨w, SignTable.build w⟩]⟩ := by
  rw [get, lookup?_eq_none_iff.2 h]

/-- Looking up a table keeps those there are, in their order. -/
lemma prefix_get (cache : SignTableCache R) (w : ℕ) : cache.tables <+: (cache.get w).2.tables := by
  by_cases h : w ∈ cache.widths
  · rw [get_of_mem h]
  · rw [get_of_notMem h]
    exact List.prefix_append _ _

/-- Looking up a table adds its width. -/
lemma mem_widths_get {v : ℕ} : v ∈ (cache.get w).2.widths ↔ v ∈ cache.widths ∨ v = w := by
  by_cases h : w ∈ cache.widths
  · rw [get_of_mem h]
    exact ⟨.inl, fun hv => hv.elim id fun heq => heq ▸ h⟩
  · rw [get_of_notMem h]
    simp [widths]

/-- No width is built twice. -/
lemma nodup_widths_get (hnodup : cache.widths.Nodup) (w : ℕ) : (cache.get w).2.widths.Nodup := by
  by_cases h : w ∈ cache.widths
  · rwa [get_of_mem h]
  · rw [get_of_notMem h, widths, List.map_append, List.nodup_append]
    refine ⟨hnodup, List.nodup_singleton _, fun v hv x hx => ?_⟩
    rw [List.mem_singleton.1 hx]
    rintro rfl
    exact h hv

/-- Looking up tables neither replaces nor removes one. -/
theorem prefix_lookUp (cache : SignTableCache R) (ws : List ℕ) : cache.tables <+: (cache.lookUp ws).tables := by
  induction ws generalizing cache with
  | nil => exact List.prefix_refl _
  | cons w ws ih => exact (cache.prefix_get w).trans (ih _)

/-- The widths in the cache are the old ones and those that were looked up. -/
theorem mem_widths_lookUp {v : ℕ} : v ∈ (cache.lookUp ws).widths ↔ v ∈ cache.widths ∨ v ∈ ws := by
  induction ws generalizing cache with
  | nil => simp [lookUp]
  | cons w ws ih => rw [lookUp_cons, ih, mem_widths_get, or_assoc, List.mem_cons]

/-- No width has two tables. -/
theorem nodup_widths_lookUp (h : cache.widths.Nodup) (ws : List ℕ) : (cache.lookUp ws).widths.Nodup := by
  induction ws generalizing cache with
  | nil => exact h
  | cons w ws ih => exact ih (nodup_widths_get h w)

/-- Looking up tables keeps the cache sound. -/
lemma Sound.lookUp (h : cache.Sound) (ws : List ℕ) : (cache.lookUp ws).Sound := by
  induction ws generalizing cache with
  | nil => exact h
  | cons w ws ih => exact ih (h.get w).2

end SignTableCache

namespace Synthesis

variable {s : Synthesis R α} {r : Except (SynthesisError R) α} {ws ws' : List ℕ}

/-- From every sound cache the result is `r`, and the tables of the widths `ws` have been looked up in this order. -/
def Follows (s : Synthesis R α) (r : Except (SynthesisError R) α) (ws : List ℕ) : Prop :=
  ∀ cache : SignTableCache R, cache.Sound → (s.run cache).run = (r, cache.lookUp ws)

/-- A value follows without a table. -/
lemma follows_pure (a : α) : (pure a : Synthesis R α).Follows (.ok a) [] := fun _ _ => rfl

/-- An error follows without a table. -/
lemma follows_throw (e : SynthesisError R) : (throw e : Synthesis R α).Follows (.error e) [] := fun _ _ => rfl

/-- A result that does not use the cache follows without a table. -/
lemma follows_lift (r : Except (SynthesisError R) α) : (liftM r : Synthesis R α).Follows r [] := fun _ _ => rfl

/-- A table follows with its own width looked up. -/
lemma follows_table (width : ℕ) : (table width : Synthesis R _).Follows (.ok (SignTable.build width)) [width] := by
  intro cache h
  rw [← (h.get width).1]
  rfl

/-- What follows a result looks up its tables after those of the result. -/
lemma Follows.bind {f : α → Synthesis R β} {a : α} {r : Except (SynthesisError R) β} (hs : s.Follows (.ok a) ws)
    (hf : (f a).Follows r ws') : (s >>= f).Follows r (ws ++ ws') := by
  intro cache h
  rw [SignTableCache.lookUp_append, ← hf _ (h.lookUp ws)]
  change (ExceptT.bindCont f (s.run cache).run.1 (s.run cache).run.2).run = _
  rw [hs cache h]
  rfl

/-- After an error no more tables are looked up. -/
lemma Follows.bind_error {f : α → Synthesis R β} {e : SynthesisError R} (hs : s.Follows (.error e) ws) :
    (s >>= f).Follows (.error e) ws := by
  intro cache h
  change (ExceptT.bindCont f (s.run cache).run.1 (s.run cache).run.2).run = _
  rw [hs cache h]
  rfl

/-- From every sound cache the result is the same; it is an overflow, or together with the widths looked up it is as
described. -/
def Yields (s : Synthesis R α) (Q : α → List ℕ → Prop) : Prop := ∃ r ws, s.Follows r ws ∧ Settles (Q · ws) r

/-- A value yields whatever it has. -/
lemma yields_pure {Q : α → List ℕ → Prop} {a : α} (h : Q a []) : (pure a : Synthesis R α).Yields Q :=
  ⟨_, _, follows_pure a, h⟩

/-- An overflow yields anything. -/
lemma yields_throw {Q : α → List ℕ → Prop} {e : SynthesisError R} (h : e.IsOverflow) :
    (throw e : Synthesis R α).Yields Q :=
  ⟨_, _, follows_throw e, h⟩

/-- A result that settles without the cache yields what it settles to. -/
lemma yields_lift {P : α → Prop} (h : Settles P r) : (liftM r : Synthesis R α).Yields fun a ws => P a ∧ ws = [] :=
  ⟨_, _, follows_lift r, h.imp fun _ ha => ⟨ha, rfl⟩⟩

/-- A table yields itself, with its own width looked up. -/
lemma yields_table (width : ℕ) :
    (table width : Synthesis R _).Yields fun t ws => t = SignTable.build width ∧ ws = [width] :=
  ⟨_, _, follows_table width, rfl, rfl⟩

/-- A synthesis that goes on after a result looks up the tables of both parts. -/
lemma Yields.bind {P : α → List ℕ → Prop} {Q : β → List ℕ → Prop} {f : α → Synthesis R β} (hs : s.Yields P)
    (hf : ∀ a ws, P a ws → (f a).Yields fun b ws' => Q b (ws ++ ws')) : (s >>= f).Yields Q := by
  obtain ⟨r, ws, hrun, hr⟩ := hs
  cases r with
  | error e => exact ⟨_, _, hrun.bind_error, hr⟩
  | ok a =>
    obtain ⟨r', ws', hrun', hr'⟩ := hf a ws hr
    exact ⟨_, _, hrun.bind hrun', hr'⟩

/-- A weaker property is yielded as well. -/
lemma Yields.imp {P Q : α → List ℕ → Prop} (hs : s.Yields P) (h : ∀ a ws, P a ws → Q a ws) : s.Yields Q := by
  obtain ⟨r, ws, hrun, hr⟩ := hs
  exact ⟨r, ws, hrun, hr.imp fun a => h a ws⟩

/-- From every sound cache the result is the same, and if there is one it has a property. Nothing is said of how the
synthesis fails. -/
def Ensures (s : Synthesis R α) (P : α → Prop) : Prop := ∃ r ws, s.Follows r ws ∧ ∀ a, r = .ok a → P a

/-- A course that is followed gives its result. -/
lemma Follows.gives (h : s.Follows r ws) : s.Gives r := fun cache hcache => ⟨_, h cache hcache, hcache.lookUp ws⟩

/-- An error ensures anything. -/
lemma Follows.ensures_error {P : α → Prop} {e : SynthesisError R} (h : s.Follows (.error e) ws) : s.Ensures P :=
  ⟨_, _, h, nofun⟩

/-- A value ensures whatever it has. -/
lemma ensures_pure {P : α → Prop} {a : α} (h : P a) : (pure a : Synthesis R α).Ensures P := by
  refine ⟨_, _, follows_pure a, ?_⟩
  rintro _ ⟨⟩
  exact h

/-- A result that does not use the cache ensures what holds of it. -/
lemma ensures_lift {P : α → Prop} (h : ∀ a, r = .ok a → P a) : (liftM r : Synthesis R α).Ensures P :=
  ⟨_, _, follows_lift r, h⟩

/-- A table is the one of its width. -/
lemma ensures_table (width : ℕ) : (table width : Synthesis R _).Ensures fun t => t = SignTable.build width := by
  refine ⟨_, _, follows_table width, ?_⟩
  rintro _ ⟨⟩
  rfl

namespace Ensures

variable {P : α → Prop}

/-- What follows a result may rely on what is ensured of it. -/
lemma bind {Q : β → Prop} {f : α → Synthesis R β} (hs : s.Ensures P) (hf : ∀ a, P a → (f a).Ensures Q) :
    (s >>= f).Ensures Q := by
  obtain ⟨r, ws, hrun, hr⟩ := hs
  cases r with
  | error e => exact hrun.bind_error.ensures_error
  | ok a =>
    obtain ⟨r', ws', hrun', hr'⟩ := hf a (hr a rfl)
    exact ⟨_, _, hrun.bind hrun', hr'⟩

/-- A weaker property is ensured as well. -/
lemma imp {Q : α → Prop} (hs : s.Ensures P) (h : ∀ a, P a → Q a) : s.Ensures Q := by
  obtain ⟨r, ws, hrun, hr⟩ := hs
  exact ⟨r, ws, hrun, fun a ha => h a (hr a ha)⟩

/-- The property of a result can be that it is the result. -/
lemma and_gives (hs : s.Ensures P) : s.Ensures fun a => P a ∧ s.Gives (.ok a) := by
  obtain ⟨r, ws, hrun, hr⟩ := hs
  refine ⟨r, ws, hrun, ?_⟩
  rintro a rfl
  exact ⟨hr a rfl, hrun.gives⟩

end Ensures

end Synthesis

end CircuitSynthesis
