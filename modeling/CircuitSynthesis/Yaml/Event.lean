import CircuitSynthesis.Yaml.Token

/-!
# Events

What a document consists of, in the order of its text: scalars, references, and the beginnings and ends of collections.
-/

namespace CircuitSynthesis.Yaml

/-- A scalar. -/
structure Leaf where
  text : String
  style : Style
  tag : Option String
  /-- Where it begins, with its anchor and its tag. -/
  mark : Mark
  deriving DecidableEq

/-- Part of a document. -/
inductive Event where
  | alias (name : String)
  | scalar (anchor : Option String) (leaf : Leaf)
  | sequenceStart (anchor : Option String)
  | sequenceEnd
  | mappingStart (anchor : Option String)
  | mappingEnd
  deriving DecidableEq

/-- A scalar that is left out. -/
def Event.missing (m : Mark) : Event := .scalar none ⟨"", .plain, none, m⟩

end CircuitSynthesis.Yaml
