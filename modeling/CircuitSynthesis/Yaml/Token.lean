import CircuitSynthesis.Yaml.Cell

/-!
# Tokens

The parts into which a YAML text is cut. Block collections, which have no brackets in the text, are bracketed by tokens of
their own, and a key is announced by a token even where the text announces it only by the colon that follows.
-/

namespace CircuitSynthesis.Yaml

/-- How the text of a scalar is written. -/
inductive Style where
  | plain
  | quoted
  | literal
  | folded
  deriving DecidableEq

/-- What a token is. -/
inductive TokenKind where
  | versionDirective (major minor : Nat)
  | tagDirective (handle meaning : String)
  | documentStart
  | documentEnd
  | textEnd
  | blockSequenceStart
  | blockMappingStart
  | blockEnd
  | flowSequenceStart
  | flowSequenceEnd
  | flowMappingStart
  | flowMappingEnd
  /-- The hyphen before an entry of a block sequence. -/
  | blockEntry
  /-- The comma between entries in brackets. -/
  | flowEntry
  /-- What announces a key. -/
  | key
  | value
  | alias (name : String)
  | anchor (name : String)
  | tag (handle suffix : String)
  | scalar (style : Style) (text : String)
  deriving DecidableEq

/-- A token at its place. -/
structure Token where
  kind : TokenKind
  mark : Mark
  deriving DecidableEq

end CircuitSynthesis.Yaml
