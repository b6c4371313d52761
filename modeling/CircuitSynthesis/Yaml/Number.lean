import CircuitSynthesis.Decimal.Reading
import CircuitSynthesis.Yaml.Event

/-!
# Numbers in YAML

A plain scalar has no type of its own: the reader of a field decides what it can stand for, whatever its tag. A literal
block stands for a number if its tag says so. Any other scalar is a text.

What a scalar stands for is what `serde_yaml_ng` makes of it.
-/

namespace CircuitSynthesis.Yaml

/-- The tags of the standard types. -/
inductive StandardTag where
  | bool
  | int
  | float
  | null
  deriving DecidableEq

/-- The full form of a standard tag. -/
def StandardTag.text : StandardTag → String
  | bool => "tag:yaml.org,2002:bool"
  | int => "tag:yaml.org,2002:int"
  | float => "tag:yaml.org,2002:float"
  | null => "tag:yaml.org,2002:null"

namespace Leaf

/-- Whether the scalar may stand for a number of a type. -/
def isNumeral (l : Leaf) (tag : StandardTag) : Bool :=
  l.style = .plain || (l.style = .literal && l.tag == some tag.text)

/-- A number that the scalar stands for; infinity and no number have spellings of their own, with a dot in front. -/
def scalar? {R : Type} [Scalar R] [DecimalText R] (l : Leaf) : Option R :=
  if !l.isNumeral .float then none
  else if l.text ∈ [".inf", ".Inf", ".INF", "+.inf", "+.Inf", "+.INF"] then some (1 / 0)
  else if l.text ∈ ["-.inf", "-.Inf", "-.INF"] then some (-1 / 0)
  else if l.text ∈ [".nan", ".NaN", ".NAN"] then some (0 / 0)
  else
    match Decimal.scalar? l.text with
    | some x => if Scalar.isFinite x then some x else none
    | none => none

/-- A natural number below a bound that the scalar stands for, in base ten or with a base in front. Leading zeros make it
a text. -/
def nat? (bound : Nat) (l : Leaf) : Option Nat := do
  if !l.isNumeral .int then none
  let cs := match l.text.toList with
    | '+' :: rest => rest
    | cs => cs
  let n ← match cs with
    | '0' :: 'x' :: digits => Decimal.natural? 16 digits
    | '0' :: 'o' :: digits => Decimal.natural? 8 digits
    | '0' :: 'b' :: digits => Decimal.natural? 2 digits
    | '0' :: _ :: _ => none
    | digits => Decimal.natural? 10 digits
  if n < bound then return n else none

end Leaf

end CircuitSynthesis.Yaml
