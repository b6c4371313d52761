import CircuitSynthesis.Scalar
import CircuitSynthesis.Decimal.Text

/-!
# JSON values

Values whose numbers are integers or scalars, and how typed data is read from them. A record is read from an object by
its keys, unknown ones being ignored and repeated ones refused, or from an array by position.

The type is `Value` of `serde_json`; the readers are what its `Deserialize` does for strings, numbers, lists, fields
and variants.
-/

namespace CircuitSynthesis

inductive Json (R : Type) where
  | null
  | bool (b : Bool)
  /-- A number without fraction or exponent, of at most 64 bits. -/
  | int (i : Int)
  /-- Any other number. -/
  | float (x : R)
  | string (s : String)
  | array (elements : List (Json R))
  /-- A list of named values, in the order in which they were written. -/
  | object (members : List (String × Json R))
  deriving Inhabited

namespace Json

variable {R α : Type}

/-- A number as written: non-finite ones have no form and become null. -/
def ofScalar [Scalar R] (x : R) : Json R := if Scalar.isFinite x then float x else null

def ofNat (n : Nat) : Json R := int n

/-- A scalar, from either kind of number. -/
def scalar? [DecimalText R] : Json R → Option R
  | int i => some (DecimalText.ofInt i)
  | float x => some x
  | _ => none

/-- A natural number below a bound. -/
def nat? (bound : Nat) : Json R → Option Nat
  | int i => if 0 ≤ i ∧ i < bound then some i.toNat else none
  | _ => none

def string? : Json R → Option String
  | string s => some s
  | _ => none

/-- A list, each of whose elements is read. -/
def list? (read : Json R → Option α) : Json R → Option (List α)
  | array elements => elements.mapM read
  | _ => none

/-- A word of an enumeration, alone or as the only key of an object that holds null. -/
def word? : Json R → Option String
  | string s => some s
  | object [(s, null)] => some s
  | _ => none

/-- A word of an enumeration, alone or as the only key of an object that holds null or an object without members. -/
def markedWord? : Json R → Option String
  | object [(s, object [])] => some s
  | v => v.word?

/-- All values of a key. -/
def valuesOf (members : List (String × Json R)) (key : String) : List (Json R) :=
  (members.filter fun m => m.1 == key).map Prod.snd

/-- The value of a key that must occur at most once. -/
def atMostOne? (members : List (String × Json R)) (key : String) : Option (Option (Json R)) :=
  match valuesOf members key with
  | [] => some none
  | [v] => some (some v)
  | _ => none

/-- The value of a key that must occur exactly once. -/
def exactlyOne? (members : List (String × Json R)) (key : String) : Option (Json R) :=
  match valuesOf members key with
  | [v] => some v
  | _ => none

/-- The values of a record's fields, in the given order. -/
def fields? (keys : List String) : Json R → Option (List (Json R))
  | object members => keys.mapM (exactlyOne? members)
  | array elements => if elements.length = keys.length then some elements else none
  | _ => none

end Json

end CircuitSynthesis
