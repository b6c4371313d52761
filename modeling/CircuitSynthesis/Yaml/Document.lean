import CircuitSynthesis.Yaml.Event.Grammar
import CircuitSynthesis.Yaml.Token.Lexer

/-!
# Documents

The only document of a text, as far as settings need it: the entries of a mapping at its root. References are replaced by
what they refer to. A number stands for an anchor, which is how many names were known before it; so an anchor whose name
is used again takes the number of a later one, and that later one is what references to it mean.

The reader is `from_str` of `serde_yaml_ng`, as `from_file` of `qsynth-compile` calls it.
-/

namespace CircuitSynthesis.Yaml

/-- A key or a value of a mapping. -/
inductive Node where
  /-- A scalar, which may be given by a reference. -/
  | leaf (leaf : Leaf) (isReferred : Bool)
  | collection
  deriving DecidableEq

/-- The anchors met so far. -/
structure Anchors where
  numbers : List (String × Nat)
  /-- What the numbers stand for, the latest first. -/
  nodes : List (Nat × Node)

namespace Anchors

def empty : Anchors := ⟨[], []⟩

def add (a : Anchors) (anchor : Option String) (node : Node) : Anchors :=
  match anchor with
  | none => a
  | some name =>
    let number := a.numbers.length
    ⟨(name, number) :: a.numbers.filter fun (other, _) => other != name, (number, node) :: a.nodes⟩

/-- What a number stands for. -/
def node (a : Anchors) (number : Nat) : Node :=
  match a.nodes.lookup number with
  | some (.leaf leaf _) => .leaf leaf true
  | _ => .collection

end Anchors

/-- Part of a document with numbers for anchors. -/
inductive Item where
  | leaf (leaf : Leaf)
  | reference (number : Nat)
  | opening
  | closing

namespace Document

/-- Numbers the anchors and the references, as far as these have a known name, and tells whether they all do. -/
def number (a : Anchors) : List Event → List Item × Anchors × Bool
  | [] => ([], a, true)
  | .alias name :: rest =>
    match a.numbers.lookup name with
    | some n => put (.reference n) (number a rest)
    | none => ([], a, false)
  | .scalar anchor leaf :: rest => put (.leaf leaf) (number (a.add anchor (.leaf leaf false)) rest)
  | .sequenceStart anchor :: rest => put .opening (number (a.add anchor .collection) rest)
  | .mappingStart anchor :: rest => put .opening (number (a.add anchor .collection) rest)
  | .sequenceEnd :: rest => put .closing (number a rest)
  | .mappingEnd :: rest => put .closing (number a rest)
where
  /-- Puts an item in front. -/
  put (item : Item) (result : List Item × Anchors × Bool) : List Item × Anchors × Bool :=
    (item :: result.1, result.2)

/-- The parts of the collection that is open, as far as they have begun; what is inside them is passed over. -/
def parts (a : Anchors) : (depth : Nat) → List Item → List Node
  | _, [] => []
  | 0, .leaf leaf :: rest => .leaf leaf false :: parts a 0 rest
  | 0, .reference n :: rest => a.node n :: parts a 0 rest
  | 0, .opening :: rest => .collection :: parts a 1 rest
  | 0, .closing :: _ => []
  | depth + 1, .opening :: rest => parts a (depth + 2) rest
  | depth + 1, .closing :: rest => parts a depth rest
  | depth + 1, _ :: rest => parts a (depth + 1) rest

/-- Keys with their values. -/
def pairs {α : Type} : List α → List (α × α)
  | key :: value :: rest => (key, value) :: pairs rest
  | _ => []

end Document

/-- What stands at the root of a document. -/
inductive Root where
  | empty
  | leaf (leaf : Leaf)
  | sequence
  | mapping (entries : List (Node × Node))
  deriving DecidableEq

/-- The root of a document whose text may break the rules further on. -/
structure Document where
  /-- The root, as far as it goes. -/
  root : Root
  /-- Whether the whole text follows the rules. -/
  isValid : Bool

/-- The document of a text. -/
def Document.ofText (text : String) : Document :=
  let (events, isComplete) := Event.ofTokens (tokens text)
  let (items, anchors, isKnown) := Document.number .empty events
  let root := match events with
    | .mappingStart _ :: _ => .mapping (Document.pairs (Document.parts anchors 0 (items.drop 1)))
    | .sequenceStart _ :: _ => .sequence
    | .scalar _ leaf :: _ => if leaf.style = .plain && leaf.text.isEmpty then .empty else .leaf leaf
    | _ => .empty
  ⟨root, isComplete && isKnown⟩

end CircuitSynthesis.Yaml
