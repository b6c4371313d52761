import CircuitSynthesis.Settings.Basic
import CircuitSynthesis.Settings.Key
import CircuitSynthesis.Json.Parser
import CircuitSynthesis.Text.Quoted
import CircuitSynthesis.Yaml.Document
import CircuitSynthesis.Yaml.Number

/-!
# Settings as records

The two forms in which settings are written. In JSON they are an object with the settings by name or an array with the
settings in order, in YAML a mapping with the settings by name. A setting that is left out keeps its standard value, one
that is given twice is refused, and members with other names are passed over.

In `qsynth-compile` these are `Serialize` and `Deserialize` of `CompilerConfig`, with `serde_json` and with
`serde_yaml_ng`.
-/

namespace CircuitSynthesis

/-- How a source presents numbers. -/
structure FieldReader (R α : Type) where
  scalar? : α → Option R
  /-- Reads a natural number below a bound. -/
  nat? : Nat → α → Option Nat

variable {R : Type} [Scalar R] [DecimalText R]

/-- Numbers as JSON presents them. -/
def FieldReader.json : FieldReader R (Json R) := ⟨Json.scalar?, Json.nat?⟩

/-- Numbers as YAML presents them. -/
def FieldReader.yaml : FieldReader R Yaml.Leaf := ⟨Yaml.Leaf.scalar?, Yaml.Leaf.nat?⟩

namespace Settings

/-- The settings with one of them read anew. -/
def update? {α : Type} (reader : FieldReader R α) (s : Settings R) (key : SettingsKey) (a : α) : Option (Settings R) :=
  match key with
  | .unitarityTolerance => do return { s with unitarityTolerance := ← reader.scalar? a }
  | .diagonalTolerance => do return { s with diagonalTolerance := ← reader.scalar? a }
  | .rotationCutoff => do return { s with rotationCutoff := ← reader.scalar? a }
  | .maxDegeneracyRetries => do return { s with maxDegeneracyRetries := (← reader.nat? (2 ^ 32) a).toUInt32 }
  | .tieBreakSeed => do return { s with tieBreakSeed := (← reader.nat? (2 ^ 64) a).toUInt64 }
  | .verifyTolerance => do return { s with verifyTolerance := ← reader.scalar? a }
  | .maxQubits => do return { s with maxQubits := (← reader.nat? (2 ^ 32) a).toUInt32 }

def toJson (s : Settings R) : Json R :=
  .object [(SettingsKey.unitarityTolerance.name, .ofScalar s.unitarityTolerance),
    (SettingsKey.diagonalTolerance.name, .ofScalar s.diagonalTolerance),
    (SettingsKey.rotationCutoff.name, .ofScalar s.rotationCutoff),
    (SettingsKey.maxDegeneracyRetries.name, .ofNat s.maxDegeneracyRetries.toNat),
    (SettingsKey.tieBreakSeed.name, .ofNat s.tieBreakSeed.toNat),
    (SettingsKey.verifyTolerance.name, .ofScalar s.verifyTolerance),
    (SettingsKey.maxQubits.name, .ofNat s.maxQubits.toNat)]

/-- Settings on the way through a record: the keys met so far, and what they set. -/
abbrev Partial (R : Type) := List SettingsKey × Settings R

/-- Sets a key that has not been met before. -/
def setOnce? {α : Type} (reader : FieldReader R α) (p : Partial R) (key : SettingsKey) (a : α) : Option (Partial R) :=
  if key ∈ p.1 then none else (p.2.update? reader key a).map fun s => (key :: p.1, s)

/-- Takes a member of a mapping; unknown keys are passed over. -/
def setMember? {α : Type} (reader : FieldReader R α) (p : Partial R) (member : String × α) : Option (Partial R) :=
  match SettingsKey.ofName? member.1 with
  | some key => setOnce? reader p key member.2
  | none => some p

/-- Settings given as a mapping. -/
def ofMembers? {α : Type} (reader : FieldReader R α) (members : List (String × α)) : Option (Settings R) :=
  (members.foldlM (setMember? reader) (([], standard) : Partial R)).map Prod.snd

section Json

open Json.Reader (Fault orMalformed)

/-- Reads the value of a key in JSON text. -/
def readField (p : Partial R) (key : SettingsKey) (cs : List Char) : Except Fault (Partial R × List Char) := do
  if key ∈ p.1 then throw .malformed
  let (v, rest) ← Json.Reader.numberField key.kind cs
  return (← orMalformed (setOnce? FieldReader.json p key v), rest)

/-- Reads the value of a member in JSON text as soon as its name is known. -/
def readMember (p : Partial R) (name : String) (cs : List Char) : Except Fault (Partial R × List Char) :=
  match SettingsKey.ofName? name with
  | some key => readField p key cs
  | none => do return (p, ← Json.Reader.skip cs)

/-- Reads the next element of a list in JSON text, which is the setting whose turn it is. -/
def readElement (p : Partial R) (cs : List Char) : Except Fault (Partial R × List Char) := do
  readField p (← orMalformed SettingsKey.all[p.1.length]?) cs

/-- Settings written as JSON, by name or by position. -/
def ofJsonText (text : String) : Except Fault (Settings R) := do
  let cs := text.toList
  let (_, s) ← match Json.Reader.skipBlank cs with
    | '"' :: rest => do
      let (p, _) ← Json.Reader.textFound (σ := Partial R) .settings rest
      pure p
    | _ => Json.Reader.record readMember readElement (([], standard) : Partial R) cs
  return s

/-- What is reported of a fault in JSON text. -/
def faultText (text : String) : Fault → String
  | .keyNotString remaining =>
    let (line, column) := Json.Reader.position (Json.Reader.before text.toList remaining)
    s!"key must be a string at line {line} column {column + 1}"
  | .textFound found kind remaining =>
    let (line, column) := Json.Reader.position (Json.Reader.before text.toList remaining)
    s!"invalid type: string {Text.quoted found}, expected {kind.name} at line {line} column {column}"
  | .malformed => "malformed settings"

end Json

section Yaml

open Yaml (Leaf Node StandardTag)

/-- What a standard tag calls for, as reports name it. -/
def tagMeaning : StandardTag → String
  | .bool => "a boolean"
  | .int => "an integer"
  | .float => "a float"
  | .null => "null"

/-- What is reported of a scalar that is not what the place calls for, be it in a field or at the root. -/
def mismatchText (field : Option String) (leaf : Leaf) (kind : FieldKind) : String :=
  let standard := [StandardTag.bool, .int, .float, .null].find? fun tag => leaf.tag == some tag.text
  let complaint := match standard with
    | some tag => s!"invalid value: string {Text.quoted leaf.text}, expected {tagMeaning tag}"
    | none => s!"invalid type: string {Text.quoted leaf.text}, expected {kind.name}"
  let place :=
    if leaf.mark.line = 0 ∧ leaf.mark.column = 0 then ""
    else s!" at line {leaf.mark.line + 1} column {leaf.mark.column + 1}"
  (field.map (· ++ ": ")).getD "" ++ complaint ++ place

/-- What is reported of other faults in YAML text. -/
def malformedText : String := "malformed settings"

/-- Takes an entry of a mapping. -/
def setEntry (p : Partial R) : Node × Node → Except String (Partial R)
  | (.collection, _) => .error malformedText
  | (.leaf name isReferred, value) =>
    match SettingsKey.ofName? name.text, value with
    | none, _ => .ok p
    | some _, .collection => .error malformedText
    | some key, .leaf leaf _ =>
      if key ∈ p.1 then .error malformedText
      else
        match setOnce? FieldReader.yaml p key leaf with
        | some p => .ok p
        | none => .error (mismatchText (some (if isReferred then "?" else key.name)) leaf key.kind)

/-- Settings written as YAML. Nothing at all stands for an empty mapping. -/
def ofYamlText (text : String) : Except String (Settings R) := do
  let document := Yaml.Document.ofText text
  let (_, s) ← match document.root with
    | .empty => pure (([], standard) : Partial R)
    | .leaf leaf => throw (mismatchText none leaf .settings)
    | .sequence => throw malformedText
    | .mapping entries => entries.foldlM setEntry (([], standard) : Partial R)
  if document.isValid then return s else throw malformedText

end Yaml

end Settings

end CircuitSynthesis
