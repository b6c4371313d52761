import Mathlib
import CircuitSynthesis.Settings.Loading

/-!
# Settings field by field

Each key names a field and the type of its value, so that settings are the same as a value for every key (`ext_get`). A
source that gives values for some keys is laid over settings key by key (`overlay`). Reading a field anew replaces the value
of its key and no other (`update?_eq`), whatever the source. The environment is one such source: `mergeEnvironment_eq_overlay`
says that each variable sets its own field.
-/

namespace CircuitSynthesis

/-- What a setting holds. -/
def SettingsKey.Value (R : Type) : SettingsKey → Type
  | maxDegeneracyRetries | maxQubits => UInt32
  | tieBreakSeed => UInt64
  | _ => R

/-- The list of keys has every key. -/
lemma SettingsKey.mem_all (key : SettingsKey) : key ∈ all := by
  cases key <;> decide

/-- No two settings have the same variable. -/
lemma SettingsKey.environmentName_injective : Function.Injective environmentName := by
  intro key key' h
  cases key <;> cases key' <;> first | rfl | exact absurd h (by decide)

namespace Settings

variable {R : Type} {s t : Settings R} {key key' : SettingsKey}

/-- The value of a setting. -/
def get (s : Settings R) : (key : SettingsKey) → key.Value R
  | .unitarityTolerance => s.unitarityTolerance
  | .diagonalTolerance => s.diagonalTolerance
  | .rotationCutoff => s.rotationCutoff
  | .maxDegeneracyRetries => s.maxDegeneracyRetries
  | .tieBreakSeed => s.tieBreakSeed
  | .verifyTolerance => s.verifyTolerance
  | .maxQubits => s.maxQubits

/-- The settings with a value for every key. -/
def ofFields (f : (key : SettingsKey) → key.Value R) : Settings R where
  unitarityTolerance := f .unitarityTolerance
  diagonalTolerance := f .diagonalTolerance
  rotationCutoff := f .rotationCutoff
  maxDegeneracyRetries := f .maxDegeneracyRetries
  tieBreakSeed := f .tieBreakSeed
  verifyTolerance := f .verifyTolerance
  maxQubits := f .maxQubits

/-- Settings made from their fields have these fields. -/
@[simp] lemma get_ofFields (f : (key : SettingsKey) → key.Value R) (key : SettingsKey) : (ofFields f).get key = f key := by
  cases key <;> rfl

/-- Settings are determined by the values of all keys. -/
lemma ext_get (h : ∀ key, s.get key = t.get key) : s = t := by
  have hfields (s : Settings R) : s = ofFields s.get := rfl
  rw [hfields s, hfields t, funext h]

/-- The settings with the value of one key replaced. -/
def set (s : Settings R) (key : SettingsKey) (x : key.Value R) : Settings R := ofFields (Function.update s.get key x)

/-- The values of a source laid over settings. -/
def overlay (s : Settings R) (given : (key : SettingsKey) → Option (key.Value R)) : Settings R :=
  ofFields fun key => (given key).getD (s.get key)

/-- Laying over takes a field where it is given and keeps it elsewhere. -/
@[simp] lemma get_overlay (s : Settings R) (given : (key : SettingsKey) → Option (key.Value R)) (key : SettingsKey) :
    (s.overlay given).get key = (given key).getD (s.get key) := get_ofFields _ key

/-- Setting a field changes this field alone. -/
@[simp] lemma get_set (s : Settings R) (key : SettingsKey) (x : key.Value R) :
    (s.set key x).get = Function.update s.get key x := funext (get_ofFields _)

/-- Nothing laid over settings leaves them as they are. -/
@[simp] lemma overlay_none (s : Settings R) : (s.overlay fun _ => none) = s :=
  ext_get fun key => get_overlay s _ key

/-- A value that is set on top is one more value laid over the settings. -/
lemma set_overlay (s : Settings R) (given : (key : SettingsKey) → Option (key.Value R)) (key : SettingsKey)
    (x : key.Value R) : (s.overlay given).set key x = s.overlay (Function.update given key (some x)) := by
  apply ext_get
  intro key'
  rw [get_set, get_overlay]
  rcases eq_or_ne key' key with rfl | hne
  · rw [Function.update_self, Function.update_self, Option.getD_some]
  · rw [Function.update_of_ne hne, Function.update_of_ne hne, get_overlay]

end Settings

section Readers

variable {R α : Type} {reader : FieldReader R α} {key : SettingsKey} {a : α}

/-- The value of a setting, as a source presents it. -/
def FieldReader.read? (reader : FieldReader R α) : (key : SettingsKey) → α → Option (key.Value R)
  | .unitarityTolerance, a => reader.scalar? a
  | .diagonalTolerance, a => reader.scalar? a
  | .rotationCutoff, a => reader.scalar? a
  | .maxDegeneracyRetries, a => (reader.nat? (2 ^ 32) a).map Nat.toUInt32
  | .tieBreakSeed, a => (reader.nat? (2 ^ 64) a).map Nat.toUInt64
  | .verifyTolerance, a => reader.scalar? a
  | .maxQubits, a => (reader.nat? (2 ^ 32) a).map Nat.toUInt32

/-- Reading a setting anew replaces its value. -/
lemma Settings.update?_eq [Scalar R] (reader : FieldReader R α) (s : Settings R) (key : SettingsKey) (a : α) :
    s.update? reader key a = (reader.read? key a).map (s.set key) := by
  cases key with
  | unitarityTolerance | diagonalTolerance | rotationCutoff | verifyTolerance =>
    rw [update?, FieldReader.read?]
    cases reader.scalar? a <;> rfl
  | maxDegeneracyRetries | maxQubits =>
    rw [update?, FieldReader.read?]
    cases reader.nat? (2 ^ 32) a <;> rfl
  | tieBreakSeed =>
    rw [update?, FieldReader.read?]
    cases reader.nat? (2 ^ 64) a <;> rfl

end Readers

section Environment

variable {R : Type} [Scalar R] [DecimalText R] {lookup : String → Option String} {s : Settings R}

/-- The value that the environment gives a setting: that of its variable, if this is set and can be read. -/
def SettingsKey.environmentValue? (lookup : String → Option String) (key : SettingsKey) : Option (key.Value R) :=
  (lookup key.environmentName).bind (FieldReader.text.read? key)

namespace Settings

/-- A variable replaces the value of its own setting. -/
lemma get_mergeVariable (lookup : String → Option String) (s : Settings R) (key key' : SettingsKey) :
    (s.mergeVariable lookup key).get key' =
      if key' = key then (key'.environmentValue? lookup).getD (s.get key') else s.get key' := by
  have hmerge : s.mergeVariable lookup key = ((key.environmentValue? lookup).map (s.set key)).getD s := by
    rw [mergeVariable, SettingsKey.environmentValue?]
    cases lookup key.environmentName with
    | none => rfl
    | some text => exact congrArg (Option.getD · s) (update?_eq FieldReader.text s key text)
  rw [hmerge]
  cases hvalue : key.environmentValue? (R := R) lookup with
  | none =>
    split
    case isTrue heq =>
      cases heq
      rw [hvalue]
      rfl
    case isFalse => rfl
  | some x =>
    rw [Option.map_some, Option.getD_some, get_set]
    split
    case isTrue heq =>
      cases heq
      rw [Function.update_self, hvalue, Option.getD_some]
    case isFalse hne => exact Function.update_of_ne hne _ _

/-- Each of the variables merged so far has replaced the value of its own setting. -/
lemma get_foldl_mergeVariable (lookup : String → Option String) (keys : List SettingsKey) (s : Settings R)
    (key : SettingsKey) :
    (keys.foldl (mergeVariable lookup) s).get key =
      if key ∈ keys then (key.environmentValue? lookup).getD (s.get key) else s.get key := by
  induction keys generalizing s with
  | nil => rfl
  | cons first keys ih =>
    rw [List.foldl_cons, ih, get_mergeVariable]
    by_cases hfirst : key = first
    · -- merging the same variable once more changes nothing
      cases key.environmentValue? (R := R) lookup <;> simp [hfirst]
    · simp [hfirst]

/-- The environment lays the values of all variables over settings. -/
theorem mergeEnvironment_eq_overlay (lookup : String → Option String) (s : Settings R) :
    s.mergeEnvironment lookup = s.overlay (SettingsKey.environmentValue? lookup) := by
  apply ext_get
  intro key
  rw [mergeEnvironment, get_foldl_mergeVariable, if_pos key.mem_all, get_overlay]

end Settings

end Environment

end CircuitSynthesis
