import CircuitSynthesis.Settings.Record

/-!
# Loading settings

Settings come from a file, if one is named, over the defaults, and from environment variables over both. A file whose
name ends in `.json` holds JSON, any other YAML. The settings of a file are checked by themselves and once more after
the environment is merged in. A variable that does not parse counts as unset.

In `qsynth-compile`, for `CompilerConfig`: `ofFile` is `from_file`, `mergeEnvironment` is `merge_overrides`,
`ofEnvironment` is `from_env` and `load` is `load`.
-/

namespace CircuitSynthesis

variable {R : Type} [Scalar R] [DecimalText R]

/-- Numbers as plain text. -/
def FieldReader.text : FieldReader R String := ⟨Decimal.scalar?, Decimal.boundedNat?⟩

namespace Settings

/-- Whether a path ends in the extension of JSON files. -/
def isJsonPath (path : String) : Bool :=
  let name := (path.toList.reverse.dropWhile (· == '/')).takeWhile (· != '/')
  let (extension, rest) := name.span (· != '.')
  (extension.map Char.toLower).reverse == ['j', 's', 'o', 'n'] && 2 ≤ rest.length

/-- Settings from the text of a file, not yet checked. -/
def ofText (path text : String) : Except (SettingsFault R) (Settings R) :=
  if isJsonPath path then
    match ofJsonText text with
    | .ok s => .ok s
    | .error fault => .error (.malformed (faultText text fault))
  else
    match ofYamlText text with
    | .ok s => .ok s
    | .error detail => .error (.malformed detail)

/-- The checked settings of a file that was read, or could not be for a reason. -/
def ofFile (path : String) (content : Except String String) : Except (SettingsFault R) (Settings R) := do
  match content with
  | .error reason => throw (.unreadable path reason)
  | .ok text =>
    let s ← ofText path text
    s.check
    return s

/-- One environment variable laid over settings. -/
def mergeVariable (lookup : String → Option String) (s : Settings R) (key : SettingsKey) : Settings R :=
  (lookup key.environmentName >>= s.update? FieldReader.text key).getD s

/-- The environment laid over settings. -/
def mergeEnvironment (lookup : String → Option String) (s : Settings R) : Settings R :=
  SettingsKey.all.foldl (mergeVariable lookup) s

/-- Settings from the environment alone, not checked. -/
def ofEnvironment (lookup : String → Option String) : Settings R := standard.mergeEnvironment lookup

/-- The checked settings of a file, if there is one, and the environment. -/
def load (file : Option (String × Except String String)) (lookup : String → Option String) :
    Except (SettingsFault R) (Settings R) := do
  let base ← match file with
    | some (path, content) => ofFile path content
    | none => pure standard
  let s := base.mergeEnvironment lookup
  s.check
  return s

end Settings

end CircuitSynthesis
