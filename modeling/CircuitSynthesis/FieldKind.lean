/-!
# Kinds of fields

What the fields of a typed record hold, as reports name it.

The record is that of the settings, `CompilerConfig` in `qsynth-compile`.
-/

namespace CircuitSynthesis

/-- What a place in a typed record calls for. -/
inductive FieldKind where
  | settings
  | scalar
  | natural32
  | natural64
  deriving DecidableEq

def FieldKind.name : FieldKind → String
  | settings => "struct CompilerConfig"
  | scalar => "f64"
  | natural32 => "u32"
  | natural64 => "u64"

end CircuitSynthesis
