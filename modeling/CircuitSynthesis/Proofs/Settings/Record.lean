import Mathlib
import CircuitSynthesis.Proofs.Json.Records
import CircuitSynthesis.Proofs.Json.Writing
import CircuitSynthesis.Proofs.Settings
import CircuitSynthesis.Proofs.Settings.Fields

/-!
# The record of settings

Settings in JSON are read member by member. Where the members are numbers that belong to settings, this is what the parsed
object gives (`ofJsonText_of_parse`), and so settings that pass are read back from both texts of their record, provided that
their numbers are read back from their texts (`ofText_toJson`).
-/

namespace CircuitSynthesis

open Json (Legible)
open Json.Reader (IsNumber orMalformed)

/-- A key is known by its name. -/
lemma SettingsKey.ofName?_name (key : SettingsKey) : ofName? key.name = some key := by
  cases key <;> decide

namespace Settings

section Read

variable {R : Type} [Scalar R] [DecimalText R]

/-- The value of a setting is taken as the number that it holds. -/
lemma readMember_of_value {m : String × Json R} {key : SettingsKey} (hkey : SettingsKey.ofName? m.1 = some key)
    (hnumber : IsNumber m.2) (p : Partial R) {fuel : ℕ} {cs rest : List Char}
    (h : Json.Reader.value fuel cs = .ok (m.2, rest)) :
    readMember p m.1 cs = (orMalformed (setMember? FieldReader.json p m)).map (·, rest) := by
  rw [readMember, setMember?, hkey]
  dsimp only
  rw [readField, Json.Reader.numberField_of_value h hnumber]
  by_cases hmet : key ∈ p.1
  · rw [if_pos hmet, setOnce?, if_pos hmet]
    rfl
  · rw [if_neg hmet]
    simp only [bind, Except.bind]
    cases setOnce? FieldReader.json p key m.2 <;> rfl

/-- An object whose members are numbers for settings is read as its members say. -/
theorem ofJsonText_of_parse {text : String} {ms : List (String × Json R)} (h : Json.parse text = .ok (.object ms))
    (hms : ∀ m ∈ ms, IsNumber m.2 ∧ ∃ key, SettingsKey.ofName? m.1 = some key) :
    ofJsonText text = orMalformed (ofMembers? FieldReader.json ms) := by
  have hrecord : Json.Reader.record readMember readElement ([], standard) text.toList =
      orMalformed (ms.foldlM (setMember? FieldReader.json) ([], standard)) := by
    refine Json.Reader.record_of_parse (fun m hm p fuel cs rest hvalue => ?_) h _
    obtain ⟨hnumber, key, hkey⟩ := hms m hm
    exact readMember_of_value hkey hnumber p hvalue
  obtain ⟨_, hvalue, -⟩ := Json.Reader.value_of_parse h
  obtain ⟨_, inner, -, hopen, -⟩ := Json.Reader.members_of_value hvalue
  rw [ofJsonText, ofMembers?]
  simp only [hopen, hrecord]
  cases ms.foldlM (setMember? FieldReader.json) (([], standard) : Partial R) <;> rfl

end Read

section Written

variable {R : Type} [Scalar R] {c : Settings R}

/-- The value of a setting as it is written. -/
def valueJson (c : Settings R) : SettingsKey → Json R
  | .unitarityTolerance => .ofScalar c.unitarityTolerance
  | .diagonalTolerance => .ofScalar c.diagonalTolerance
  | .rotationCutoff => .ofScalar c.rotationCutoff
  | .maxDegeneracyRetries => .ofNat c.maxDegeneracyRetries.toNat
  | .tieBreakSeed => .ofNat c.tieBreakSeed.toNat
  | .verifyTolerance => .ofScalar c.verifyTolerance
  | .maxQubits => .ofNat c.maxQubits.toNat

/-- The members of a record, in the order of the keys. -/
def members (c : Settings R) (keys : List SettingsKey) : List (String × Json R) :=
  keys.map fun key => (key.name, c.valueJson key)

/-- Settings are written as an object with a member for each key. -/
lemma toJson_eq_object (c : Settings R) : c.toJson = .object (c.members SettingsKey.all) := rfl

/-- The numbers of settings that pass are of finite size. -/
lemma isFinite_of_check (h : c.check = .ok ()) : Scalar.isFinite c.unitarityTolerance = true ∧
    Scalar.isFinite c.diagonalTolerance = true ∧ Scalar.isFinite c.rotationCutoff = true ∧
    Scalar.isFinite c.verifyTolerance = true := by
  obtain ⟨hunitarity, hdiagonal, hverify, hcutoff, -⟩ := check_eq_ok_iff.1 h
  refine ⟨hunitarity.1, hdiagonal.1, ?_, hverify.1⟩
  cases hfinite : Scalar.isFinite c.rotationCutoff with
  | true => rfl
  | false => simp [hfinite] at hcutoff

/-- Settings that pass are written as numbers. -/
lemma isNumber_valueJson (h : c.check = .ok ()) (key : SettingsKey) : IsNumber (c.valueJson key) := by
  obtain ⟨hunitarity, hdiagonal, hcutoff, hverify⟩ := isFinite_of_check h
  cases key <;> simp [valueJson, Json.ofScalar, Json.ofNat, IsNumber, *]

end Written

section Recovered

variable {R : Type} [Scalar R] [DecimalText R] {c : Settings R}

/-- What is written for a setting is read as its value. -/
lemma read?_valueJson (h : c.check = .ok ()) (key : SettingsKey) :
    FieldReader.json.read? key (c.valueJson key) = some (c.get key) := by
  have hscalar {x : R} (hx : Scalar.isFinite x = true) : FieldReader.json.scalar? (Json.ofScalar x) = some x := by
    rw [Json.ofScalar, if_pos hx]
    rfl
  have hnat {n bound : ℕ} (hn : n < bound) : (FieldReader.json : FieldReader R _).nat? bound (Json.ofNat n) = some n := by
    simp [FieldReader.json, Json.ofNat, Json.nat?, hn]
  obtain ⟨hunitarity, hdiagonal, hcutoff, hverify⟩ := isFinite_of_check h
  cases key with
  | unitarityTolerance => exact hscalar hunitarity
  | diagonalTolerance => exact hscalar hdiagonal
  | rotationCutoff => exact hscalar hcutoff
  | verifyTolerance => exact hscalar hverify
  | maxDegeneracyRetries | maxQubits =>
    rw [FieldReader.read?, valueJson, hnat (UInt32.toNat_lt _)]
    exact congrArg some UInt32.ofNat_toNat
  | tieBreakSeed =>
    rw [FieldReader.read?, valueJson, hnat (UInt64.toNat_lt _)]
    exact congrArg some UInt64.ofNat_toNat

/-- Members of distinct settings are taken one after another, and each sets its own value. -/
lemma foldlM_setMember?_members (h : c.check = .ok ()) (keys : List SettingsKey) (hnodup : keys.Nodup) {p : Partial R}
    (hp : ∀ key ∈ keys, key ∉ p.1) :
    ∃ p', (c.members keys).foldlM (setMember? FieldReader.json) p = some p' ∧
      ∀ key, p'.2.get key = if key ∈ keys then c.get key else p.2.get key := by
  induction keys generalizing p with
  | nil => exact ⟨p, rfl, fun _ => rfl⟩
  | cons first keys ih =>
    rw [List.nodup_cons] at hnodup
    have hset : setMember? FieldReader.json p (first.name, c.valueJson first) =
        some (first :: p.1, p.2.set first (c.get first)) := by
      rw [setMember?, SettingsKey.ofName?_name]
      dsimp only
      rw [setOnce?, if_neg (hp first List.mem_cons_self), update?_eq, read?_valueJson h]
      rfl
    obtain ⟨p', hfold, hget⟩ := ih hnodup.2 (p := (first :: p.1, p.2.set first (c.get first))) fun key hkey =>
      List.not_mem_cons_of_ne_of_not_mem (fun heq => hnodup.1 (heq ▸ hkey)) (hp key (List.mem_cons_of_mem _ hkey))
    refine ⟨p', ?_, fun key => ?_⟩
    · rw [members, List.map_cons, List.foldlM_cons, hset]
      exact hfold
    · rw [hget, get_set]
      rcases eq_or_ne key first with rfl | hne
      · simp
      · simp [hne]

/-- The members of the record are read back. -/
lemma ofMembers?_members (h : c.check = .ok ()) : ofMembers? FieldReader.json (c.members SettingsKey.all) = some c := by
  obtain ⟨p', hfold, hget⟩ := foldlM_setMember?_members h SettingsKey.all (by decide) (p := ([], standard)) nofun
  rw [ofMembers?, hfold]
  refine congrArg some (ext_get fun key => ?_)
  rw [hget, if_pos key.mem_all]

/-- Settings that pass are read back from both texts of their record, if their numbers are read back from theirs. -/
theorem ofText_toJson (h : c.check = .ok ()) {path : String} (hpath : isJsonPath path = true)
    (hnumbers : c.toJson.Numbers Legible) :
    ofText path c.toJson.compact = .ok c ∧ ofText path c.toJson.pretty = .ok c := by
  have hms : ∀ m ∈ c.members SettingsKey.all, IsNumber m.2 ∧ ∃ key, SettingsKey.ofName? m.1 = some key := by
    intro m hm
    obtain ⟨key, -, rfl⟩ := List.mem_map.1 hm
    exact ⟨isNumber_valueJson h key, key, key.ofName?_name⟩
  have htext {text : String} (hparse : Json.parse text = .ok c.toJson) : ofText path text = .ok c := by
    rw [toJson_eq_object] at hparse
    rw [ofText, if_pos hpath, ofJsonText_of_parse hparse hms, ofMembers?_members h]
    rfl
  exact ⟨htext (Json.parse_compact hnumbers), htext (Json.parse_pretty hnumbers)⟩

end Recovered

end Settings

end CircuitSynthesis
