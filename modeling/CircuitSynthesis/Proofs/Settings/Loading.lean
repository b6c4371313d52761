import Mathlib
import CircuitSynthesis.Proofs.Record.RoundTrip
import CircuitSynthesis.Proofs.Settings.Record

/-!
# Loading settings

`Given R` are the settings that a file gives, each of them once. Both forms of files are read with the settings met so far
laid over the standard ones, so that what is left out keeps its standard value (`ofText_eq_ok_iff`). Then `load_spec` says
where each setting of a successful load comes from: its own variable, else the file, else the standard settings.
-/

namespace CircuitSynthesis

open Json.Reader (Fault orMalformed mapState)
open Yaml (Node Document)

/-- The settings that a source gives, each of them once, the latest first. -/
abbrev Given (R : Type) : Type := AList (SettingsKey.Value R)

namespace Given

section Progress

variable {R : Type} [Scalar R]

/-- The settings that a source gives, laid over the standard ones. -/
def settings (g : Given R) : Settings R := Settings.standard.overlay fun key => g.lookup key

/-- How far the reading of a record has come with these settings. -/
def progress (g : Given R) : Settings.Partial R := (g.keys, g.settings)

/-- Before anything is read the settings are the standard ones. -/
lemma progress_empty : (∅ : Given R).progress = ([], Settings.standard) := by
  rw [progress, settings]
  simp only [AList.lookup_empty, Settings.overlay_none, AList.keys_empty]

/-- One more setting, unless it has been met or cannot be read. -/
def add? {α : Type} (reader : FieldReader R α) (g : Given R) (key : SettingsKey) (a : α) : Option (Given R) :=
  if key ∈ g then none else (reader.read? key a).map fun x => g.insert key x

/-- Reading a setting once is adding it to those given. -/
lemma setOnce?_progress {α : Type} (reader : FieldReader R α) (g : Given R) (key : SettingsKey) (a : α) :
    Settings.setOnce? reader g.progress key a = (g.add? reader key a).map progress := by
  rw [Settings.setOnce?, add?, progress, Settings.update?_eq]
  by_cases hkey : key ∈ g
  · rw [if_pos hkey, if_pos (AList.mem_keys.1 hkey), Option.map_none]
  · rw [if_neg hkey, if_neg (mt AList.mem_keys.2 hkey), Option.map_map, Option.map_map]
    congr 1
    funext x
    have hlookup : (fun key' => (g.insert key x).lookup key') =
        Function.update (fun key' => g.lookup key') key (some x) := by
      funext key'
      rcases eq_or_ne key' key with rfl | hne
      · rw [AList.lookup_insert, Function.update_self]
      · rw [AList.lookup_insert_ne hne, Function.update_of_ne hne]
    have hkeys : (g.insert key x).keys = key :: g.keys := by
      rw [AList.keys_insert, List.erase_of_not_mem (mt AList.mem_keys.2 hkey)]
    simp only [Function.comp_apply, progress, settings, hkeys, hlookup, Settings.set_overlay]

/-- Where a reading fails, no settings are given. -/
lemma error_eq_ok_iff {ε : Type} {fault : ε} {s : Settings R} :
    (.error fault : Except ε (Settings R)) = .ok s ↔ ∃ g : Given R, none = some g ∧ s = g.settings := by
  simp

end Progress

variable {R : Type} [Scalar R] [DecimalText R]

section Json

/-- Reads the value of a key in JSON text. -/
def readField (g : Given R) (key : SettingsKey) (cs : List Char) : Except Fault (Given R × List Char) := do
  if key ∈ g then throw .malformed
  let (v, rest) ← Json.Reader.numberField key.kind cs
  return (← orMalformed (g.add? FieldReader.json key v), rest)

/-- Reads the value of a member in JSON text. -/
def readMember (g : Given R) (name : String) (cs : List Char) : Except Fault (Given R × List Char) :=
  match SettingsKey.ofName? name with
  | some key => g.readField key cs
  | none => do return (g, ← Json.Reader.skip cs)

/-- Reads the next element of a list in JSON text. -/
def readElement (g : Given R) (cs : List Char) : Except Fault (Given R × List Char) := do
  g.readField (← orMalformed SettingsKey.all[g.keys.length]?) cs

/-- The value of a key is read in the same way from either state. -/
lemma readField_progress (g : Given R) (key : SettingsKey) (cs : List Char) :
    Settings.readField g.progress key cs = mapState progress (g.readField key cs) := by
  have hmet : key ∈ g.progress.1 ↔ key ∈ g := AList.mem_keys.symm
  rw [Settings.readField, readField]
  by_cases hkey : key ∈ g
  · rw [if_pos hkey, if_pos (hmet.2 hkey)]
    rfl
  · rw [if_neg hkey, if_neg (mt hmet.1 hkey)]
    cases Json.Reader.numberField (R := R) key.kind cs with
    | error fault => rfl
    | ok found =>
      obtain ⟨v, rest⟩ := found
      simp only [bind, Except.bind, setOnce?_progress]
      cases g.add? FieldReader.json key v <;> rfl

/-- A member of an object is read in the same way from either state. -/
lemma readMember_progress (g : Given R) (name : String) (cs : List Char) :
    Settings.readMember g.progress name cs = mapState progress (g.readMember name cs) := by
  rw [Settings.readMember, readMember]
  cases SettingsKey.ofName? name with
  | some key => exact readField_progress g key cs
  | none =>
    simp only [bind, Except.bind]
    cases Json.Reader.skip cs <;> rfl

/-- An element of an array is read in the same way from either state. -/
lemma readElement_progress (g : Given R) (cs : List Char) :
    Settings.readElement g.progress cs = mapState progress (g.readElement cs) := by
  rw [Settings.readElement, readElement, progress]
  cases SettingsKey.all[g.keys.length]? with
  | none => rfl
  | some key => exact readField_progress g key cs

/-- The settings that a JSON text gives by name or by position, if it can be read. -/
def ofJsonText? (text : String) : Option (Given R) :=
  (Json.Reader.record readMember readElement ∅ text.toList).toOption

/-- A JSON text is read exactly as the settings that it gives, over the standard ones. -/
lemma ofJsonText_eq_ok_iff {text : String} {s : Settings R} :
    Settings.ofJsonText text = .ok s ↔ ∃ g, ofJsonText? text = some g ∧ s = g.settings := by
  have hrecord := Json.Reader.record_map (f := progress (R := R)) readMember_progress readElement_progress ∅ text.toList
  rw [progress_empty] at hrecord
  rw [Settings.ofJsonText, ofJsonText?]
  dsimp only
  split
  case h_1 rest hquote =>
    -- a text in quotes is reported as such, but it is no record either
    have hnone : Json.Reader.record (σ := Given R) readMember readElement ∅ text.toList = .error .malformed := by
      rw [Json.Reader.record]
      simp only [hquote]
      rfl
    rw [hnone, Json.Reader.textFound]
    cases orMalformed (Json.Quoted.read? rest) <;> exact error_eq_ok_iff
  case h_2 =>
    rw [hrecord]
    cases Json.Reader.record (σ := Given R) readMember readElement ∅ text.toList with
    | error fault => exact error_eq_ok_iff
    | ok g =>
      constructor
      · intro h
        exact ⟨g, rfl, (Except.ok.inj h).symm⟩
      · rintro ⟨g', hg, rfl⟩
        cases hg
        rfl

end Json

section Yaml

/-- Takes an entry of a YAML mapping. -/
def takeEntry? (g : Given R) : Node × Node → Option (Given R)
  | (.collection, _) => none
  | (.leaf name _, value) =>
    match SettingsKey.ofName? name.text, value with
    | none, _ => some g
    | some _, .collection => none
    | some key, .leaf leaf _ => g.add? FieldReader.yaml key leaf

/-- An entry of a YAML mapping is taken in the same way from either state. -/
lemma setEntry_progress (g : Given R) (entry : Node × Node) :
    (Settings.setEntry g.progress entry).toOption = (g.takeEntry? entry).map progress := by
  have hmet (key : SettingsKey) : key ∈ g.progress.1 ↔ key ∈ g := AList.mem_keys.symm
  match entry with
  | (.collection, _) => rfl
  | (.leaf name isReferred, value) =>
    cases hname : SettingsKey.ofName? name.text with
    | none =>
      simp only [Settings.setEntry, takeEntry?, hname]
      rfl
    | some key =>
      cases value with
      | collection =>
        simp only [Settings.setEntry, takeEntry?, hname]
        rfl
      | leaf leaf _ =>
        simp only [Settings.setEntry, takeEntry?, hname, hmet, setOnce?_progress]
        by_cases hkey : key ∈ g
        · rw [if_pos hkey, add?, if_pos hkey]
          rfl
        · rw [if_neg hkey]
          cases g.add? FieldReader.yaml key leaf <;> rfl

/-- All entries of a mapping are taken in the same way from either state, by induction over them. -/
lemma foldlM_setEntry_progress (entries : List (Node × Node)) (g : Given R) :
    (entries.foldlM Settings.setEntry g.progress).toOption = (entries.foldlM takeEntry? g).map progress := by
  induction entries generalizing g with
  | nil => rfl
  | cons entry entries ih =>
    have hentry := setEntry_progress g entry
    rw [List.foldlM_cons, List.foldlM_cons]
    cases htake : g.takeEntry? entry with
    | none =>
      cases hset : Settings.setEntry g.progress entry with
      | error fault => rfl
      | ok p => rw [htake, hset] at hentry; cases hentry
    | some g' =>
      cases hset : Settings.setEntry g.progress entry with
      | error fault => rw [htake, hset] at hentry; cases hentry
      | ok p =>
        rw [htake, hset] at hentry
        obtain rfl : p = g'.progress := Option.some.inj hentry
        exact ih g'

/-- The settings that the root of a YAML document gives, if they can be read. -/
def ofRoot? : Yaml.Root → Option (Given R)
  | .empty => some ∅
  | .leaf _ => none
  | .sequence => none
  | .mapping entries => entries.foldlM takeEntry? ∅

/-- The settings that a YAML text gives, if it can be read. -/
def ofYamlText? (text : String) : Option (Given R) :=
  if (Document.ofText text).isValid then ofRoot? (Document.ofText text).root else none

/-- A YAML text is read exactly as the settings that it gives, over the standard ones. -/
lemma ofYamlText_eq_ok_iff {text : String} {s : Settings R} :
    Settings.ofYamlText text = .ok s ↔ ∃ g, ofYamlText? text = some g ∧ s = g.settings := by
  -- a root that is read gives the settings only if the rest of the text follows the rules
  have hend {r : Except String (Settings.Partial R)} {o : Option (Given R)} (h : r.toOption = o.map progress)
      (isValid : Bool) : (do let p ← r; if isValid then return p.2 else throw Settings.malformedText) = .ok s ↔
        ∃ g, (if isValid then o else none) = some g ∧ s = g.settings := by
    cases r with
    | error fault =>
      obtain rfl : o = none := Option.map_eq_none_iff.1 h.symm
      rw [ite_self]
      exact error_eq_ok_iff
    | ok p =>
      obtain ⟨g, rfl, rfl⟩ := Option.map_eq_some_iff.1 h.symm
      cases isValid with
      | false => exact error_eq_ok_iff
      | true =>
        constructor
        · intro h
          exact ⟨g, rfl, (Except.ok.inj h).symm⟩
        · rintro ⟨g', hg, rfl⟩
          cases hg
          rfl
  rw [Settings.ofYamlText, ofYamlText?]
  dsimp only
  cases (Document.ofText text).root with
  | empty => exact hend (r := .ok ([], Settings.standard)) (o := some ∅) (congrArg some progress_empty.symm) _
  | leaf leaf => exact hend (r := .error (Settings.mismatchText none leaf .settings)) rfl _
  | sequence => exact hend (r := .error Settings.malformedText) rfl _
  | mapping entries => exact hend (progress_empty (R := R) ▸ foldlM_setEntry_progress entries ∅) _

end Yaml

/-- The settings that the text of a file gives, if it can be read. -/
def ofText? (path text : String) : Option (Given R) :=
  if Settings.isJsonPath path then ofJsonText? text else ofYamlText? text

/-- The settings of a file are those that it gives, and the standard ones for the rest. -/
theorem ofText_eq_ok_iff {path text : String} {s : Settings R} :
    Settings.ofText path text = .ok s ↔ ∃ g, ofText? path text = some g ∧ s = g.settings := by
  rw [Settings.ofText, ofText?]
  split
  case isTrue =>
    rw [← ofJsonText_eq_ok_iff]
    cases Settings.ofJsonText (R := R) text <;> simp
  case isFalse =>
    rw [← ofYamlText_eq_ok_iff]
    cases Settings.ofYamlText (R := R) text <;> simp

/-- The settings that an optional file gives, if it can be read. Without a file none are given. -/
def ofFile? : Option (String × Except String String) → Option (Given R)
  | none => some ∅
  | some (_, .error _) => none
  | some (path, .ok text) => ofText? path text

end Given

namespace Settings

variable {R : Type} [Scalar R] [DecimalText R] {file : Option (String × Except String String)}
  {lookup lookup' : String → Option String} {c c' : Settings R}

omit [DecimalText R] in
/-- Settings that are checked before they are returned. -/
lemma checked_eq_ok_iff {s : Settings R} : (do s.check; return s) = .ok c ↔ s.check = .ok () ∧ c = s := by
  rw [check_bind_eq_ok_iff]
  exact and_congr_right fun _ => ⟨fun h => (Except.ok.inj h).symm, fun h => congrArg Except.ok h.symm⟩

/-- A file is accepted exactly if it can be read and its settings pass. -/
lemma ofFile_eq_ok_iff {path : String} {content : Except String String} : ofFile path content = .ok c ↔
    ∃ g, Given.ofFile? (some (path, content)) = some g ∧ g.settings.check = .ok () ∧ c = g.settings := by
  cases content with
  | error reason => simp [ofFile, Given.ofFile?]
  | ok text =>
    refine bind_eq_ok_iff.trans ?_
    simp only [Given.ofText_eq_ok_iff, checked_eq_ok_iff, Given.ofFile?]
    constructor
    · rintro ⟨_, ⟨g, hg, rfl⟩, h⟩
      exact ⟨g, hg, h⟩
    · rintro ⟨g, hg, h⟩
      exact ⟨g.settings, ⟨g, hg, rfl⟩, h⟩

/-- What is loaded are the settings of the environment over those of the file over the standard ones. They pass, and so do
those of the file by themselves if there is one. -/
lemma load_eq_ok_iff_overlay : load file lookup = .ok c ↔ ∃ g : Given R, Given.ofFile? file = some g ∧
    (file.isSome → g.settings.check = .ok ()) ∧ c.check = .ok () ∧
    c = g.settings.overlay (SettingsKey.environmentValue? lookup) := by
  have hmerged (s : Settings R) : (do (s.mergeEnvironment lookup).check; return s.mergeEnvironment lookup) = .ok c ↔
      c.check = .ok () ∧ c = s.overlay (SettingsKey.environmentValue? lookup) := by
    rw [checked_eq_ok_iff, mergeEnvironment_eq_overlay]
    exact and_congr_left fun h => by rw [h]
  cases file with
  | none =>
    have hempty : (∅ : Given R).settings = standard := congrArg Prod.snd Given.progress_empty
    refine (hmerged standard).trans ?_
    rw [← hempty, Given.ofFile?]
    simp
  | some named =>
    refine bind_eq_ok_iff.trans ?_
    simp only [hmerged, ofFile_eq_ok_iff, Option.isSome_some, forall_const]
    constructor
    · rintro ⟨_, ⟨g, hg, hcheck, rfl⟩, h⟩
      exact ⟨g, hg, hcheck, h⟩
    · rintro ⟨g, hg, hcheck, h⟩
      exact ⟨g.settings, ⟨g, hg, hcheck, rfl⟩, h⟩

/-- Each setting that is loaded is the value of its variable, else of the file, else the standard one. -/
theorem load_eq_ok_iff : load file lookup = .ok c ↔ ∃ g : Given R, Given.ofFile? file = some g ∧
    (file.isSome → g.settings.check = .ok ()) ∧ c.check = .ok () ∧
    ∀ key, c.get key = ((key.environmentValue? lookup).or (g.lookup key)).getD (standard.get key) := by
  have hfields (g : Given R) : c = g.settings.overlay (SettingsKey.environmentValue? lookup) ↔
      ∀ key, c.get key = ((key.environmentValue? lookup).or (g.lookup key)).getD (standard.get key) := by
    have hkey (key : SettingsKey) : (g.settings.overlay (SettingsKey.environmentValue? lookup)).get key =
        ((key.environmentValue? lookup).or (g.lookup key)).getD (standard.get key) := by
      rw [get_overlay, Given.settings, get_overlay]
      cases key.environmentValue? (R := R) lookup <;> rfl
    constructor
    · rintro rfl
      exact hkey
    · intro h
      exact ext_get fun key => (h key).trans (hkey key).symm
  rw [load_eq_ok_iff_overlay]
  simp only [hfields]

/-- Only what the variables give matters. -/
lemma load_congr (h : ∀ key : SettingsKey, key.environmentValue? (R := R) lookup = key.environmentValue? lookup') :
    load (R := R) file lookup = load file lookup' := by
  have hmerge (s : Settings R) : s.mergeEnvironment lookup = s.mergeEnvironment lookup' := by
    rw [mergeEnvironment_eq_overlay, mergeEnvironment_eq_overlay, funext h]
  simp only [load, hmerge]

/-- A variable that cannot be read counts as unset. -/
lemma load_update_unreadable {key : SettingsKey} {text : String}
    (h : (FieldReader.text : FieldReader R String).read? key text = none) :
    load (R := R) file (Function.update lookup key.environmentName (some text)) =
      load file (Function.update lookup key.environmentName none) := by
  refine load_congr fun key' => ?_
  rw [SettingsKey.environmentValue?, SettingsKey.environmentValue?]
  rcases eq_or_ne key' key with rfl | hne
  · rw [Function.update_self, Function.update_self, Option.bind_some, h, Option.bind_none]
  · have hname := SettingsKey.environmentName_injective.ne hne
    rw [Function.update_of_ne hname, Function.update_of_ne hname]

/-- A setting depends on no variable but its own. -/
lemma get_eq_of_load {key : SettingsKey} (h : load file lookup = .ok c) (h' : load file lookup' = .ok c')
    (hvariable : lookup key.environmentName = lookup' key.environmentName) : c.get key = c'.get key := by
  obtain ⟨g, hg, -, -, hfields⟩ := load_eq_ok_iff.1 h
  obtain ⟨g', hg', -, -, hfields'⟩ := load_eq_ok_iff.1 h'
  obtain rfl : g = g' := Option.some.inj (hg.symm.trans hg')
  rw [hfields, hfields', SettingsKey.environmentValue?, SettingsKey.environmentValue?, hvariable]

/-- Settings that were loaded are loaded again from a file that holds them. -/
lemma load_again {path text : String} (h : load file lookup = .ok c) (htext : ofText path text = .ok c) :
    load (some (path, .ok text)) lookup = .ok c := by
  obtain ⟨g, -, -, hcheck, hfields⟩ := load_eq_ok_iff.1 h
  obtain ⟨g', hg', rfl⟩ := Given.ofText_eq_ok_iff.1 htext
  refine load_eq_ok_iff_overlay.2 ⟨g', hg', fun _ => hcheck, hcheck, ext_get fun key => ?_⟩
  rw [get_overlay, hfields]
  cases key.environmentValue? (R := R) lookup <;> rfl

/-- A text is read as the settings that it gives, laid over the standard ones. Settings are loaded if and only if the file, if
there is one, can be read and passes by itself, and what is merged passes; each setting is then the value of its own variable,
else of the file, else the standard one. A variable that cannot be read counts as unset, and no variable changes the setting
of another. What was loaded is loaded again from a file that holds it, such as its record in JSON if its numbers are read back
from their texts. -/
theorem load_spec (file : Option (String × Except String String)) (lookup : String → Option String) :
    (∀ (path text : String) (s : Settings R), ofText path text = .ok s ↔
      ∃ g : Given R, Given.ofFile? (some (path, .ok text)) = some g ∧ s = g.settings) ∧
    (∀ c : Settings R, load file lookup = .ok c ↔ ∃ g : Given R, Given.ofFile? file = some g ∧
      (file.isSome → g.settings.check = .ok ()) ∧ c.check = .ok () ∧
      ∀ key, c.get key = ((key.environmentValue? lookup).or (g.lookup key)).getD (standard.get key)) ∧
    (∀ (key : SettingsKey) (text : String), (FieldReader.text : FieldReader R String).read? key text = none →
      load (R := R) file (Function.update lookup key.environmentName (some text)) =
        load file (Function.update lookup key.environmentName none)) ∧
    (∀ (lookup' : String → Option String) (c c' : Settings R) (key : SettingsKey), load file lookup = .ok c →
      load file lookup' = .ok c' → lookup key.environmentName = lookup' key.environmentName → c.get key = c'.get key) ∧
    ∀ c : Settings R, load file lookup = .ok c →
      (∀ path text, ofText path text = .ok c → load (some (path, .ok text)) lookup = .ok c) ∧
      ∀ path, isJsonPath path = true → c.toJson.Numbers Json.Legible →
        load (some (path, .ok c.toJson.pretty)) lookup = .ok c := by
  refine ⟨fun _ _ _ => Given.ofText_eq_ok_iff, fun _ => load_eq_ok_iff, fun _ _ => load_update_unreadable,
    fun _ _ _ _ => get_eq_of_load, fun c h => ⟨fun _ _ => load_again h, fun path hpath hnumbers => ?_⟩⟩
  obtain ⟨_, -, -, hcheck, -⟩ := load_eq_ok_iff.1 h
  exact load_again h (ofText_toJson hcheck hpath hnumbers).2

section Example

noncomputable local instance : DecimalText ℝ := halfText

/-- A file that limits the qubits. -/
def limitFile : Option (String × Except String String) := some ("settings.json", .ok "\x7b\"max_qubits\": 8\x7d")

/-- An environment that sets all four real numbers to one half. -/
def halfEnvironment (name : String) : Option String :=
  if name = "QSYNTH_UNITARITY_TOLERANCE" ∨ name = "QSYNTH_DIAGONAL_TOLERANCE" ∨ name = "QSYNTH_ROTATION_CUTOFF" ∨
    name = "QSYNTH_VERIFY_TOLERANCE" then some "0.5" else none

/-- What both give together. -/
noncomputable def halfSettings : Settings ℝ := ⟨1 / 2, 1 / 2, 1 / 2, 100, 2023, 1 / 2, 8⟩

section Reading

variable {R : Type} [Scalar R] [DecimalText R]

/-- The file of the example gives a limit of eight. -/
lemma ofText_limitFile : ofText (R := R) "settings.json" "\x7b\"max_qubits\": 8\x7d" =
    .ok { standard with maxQubits := 8 } := by cbv

/-- The environment of the example replaces the four real numbers. -/
lemma mergeEnvironment_half (s : Settings R) : s.mergeEnvironment halfEnvironment =
    let half : R := DecimalText.ofDecimal false 5 (-1)
    { s with unitarityTolerance := half, diagonalTolerance := half, rotationCutoff := half, verifyTolerance := half } := by
  cbv

end Reading

/-- Together they pass. -/
lemma check_halfSettings : halfSettings.check = .ok () := by
  have hhalf : (0 : ℝ) < 1 / 2 := by norm_num
  rw [check_eq_ok_iff, isPositive_real, isPositive_real, isPositive_real]
  refine ⟨hhalf, hhalf, hhalf, ?_, by decide, by decide⟩
  change ¬ (!true || decide ((1 / 2 : ℝ) < 0)) = true
  norm_num

/-- Whatever the environment, the file can be read and passes by itself. -/
lemma load_limitFile {environment : String → Option String} {c : Settings ℝ}
    (hmerge : ({ standard with maxQubits := 8 } : Settings ℝ).mergeEnvironment environment = c) (hcheck : c.check = .ok ()) :
    load limitFile environment = .ok c := by
  have hfile : ofFile "settings.json" (.ok "\x7b\"max_qubits\": 8\x7d") = .ok { standard with maxQubits := 8 } :=
    bind_eq_ok_iff.2 ⟨_, ofText_limitFile, checked_eq_ok_iff.2 ⟨check_standard (by decide), rfl⟩⟩
  exact bind_eq_ok_iff.2 ⟨_, hfile, checked_eq_ok_iff.2 ⟨hmerge ▸ hcheck, hmerge.symm⟩⟩

/-- The settings of the example are loaded from both. -/
lemma load_half : load limitFile halfEnvironment = .ok halfSettings := by
  refine load_limitFile ?_ check_halfSettings
  have hhalf : (DecimalText.ofDecimal false 5 (-1) : ℝ) = 1 / 2 := by
    simp [DecimalText.ofDecimal]
    norm_num
  rw [mergeEnvironment_half, hhalf]
  rfl

/-- Without the environment only the limit is loaded. -/
lemma load_limit : load limitFile (fun _ => none) = .ok ({ standard with maxQubits := 8 } : Settings ℝ) :=
  load_limitFile (by rw [mergeEnvironment_eq_overlay]; exact overlay_none _) (check_standard (by decide))

/-- The numbers of these settings are read back from their texts. -/
lemma legible_halfSettings : halfSettings.toJson.Numbers Json.Legible := by
  simpa [halfSettings, toJson, Json.ofScalar, Json.ofNat, Scalar.isFinite] using legible_half

/-- The file and the environment are loaded, each setting from where it is given. A word for the limit counts as no limit, an
empty environment leaves the limit as it is, and what was loaded is loaded again from its own record. -/
theorem load_spec_half :
    (∃ g : Given ℝ, Given.ofFile? limitFile = some g ∧ g.settings.check = .ok () ∧ ∀ key,
      halfSettings.get key = ((key.environmentValue? halfEnvironment).or (g.lookup key)).getD (standard.get key)) ∧
    load (R := ℝ) limitFile (Function.update halfEnvironment "QSYNTH_MAX_QUBITS" (some "many")) =
      load limitFile (Function.update halfEnvironment "QSYNTH_MAX_QUBITS" none) ∧
    (∃ c : Settings ℝ, load limitFile (fun _ => none) = .ok c ∧ halfSettings.maxQubits = c.maxQubits) ∧
    load (some ("saved.json", .ok halfSettings.toJson.pretty)) halfEnvironment = .ok halfSettings := by
  obtain ⟨-, hload, hunreadable, hown, hagain⟩ := load_spec (R := ℝ) limitFile halfEnvironment
  obtain ⟨g, hg, hfile, -, hfields⟩ := (hload halfSettings).1 load_half
  exact ⟨⟨g, hg, hfile rfl, hfields⟩, hunreadable .maxQubits "many" rfl,
    ⟨_, load_limit, hown _ _ _ .maxQubits load_half load_limit rfl⟩,
    (hagain halfSettings load_half).2 "saved.json" rfl legible_halfSettings⟩

end Example

end Settings

end CircuitSynthesis
