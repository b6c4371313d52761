import CircuitSynthesis.FieldKind
import CircuitSynthesis.Json.Number
import CircuitSynthesis.Json.Text

/-!
# Reading JSON text

A reader over the remaining characters. Each function returns what it read and what is left. A value is either kept
(`Reader.value`), or passed over (`Reader.skip`): then numbers may be too large and texts may hold half of a surrogate
pair. `Reader.record` reads an object member by member or an array element by element. The recursion is bounded by a
number of steps that the length of the text always covers.

The texts and the faults are those of `from_str` in `serde_json`: `value` for a value of any type, `record` for the
fields of a known type, `skip` for a field that the type does not have.
-/

namespace CircuitSynthesis.Json

namespace Reader

/-- What is wrong with a text. -/
inductive Fault where
  /-- An object has something other than a text for a key, with so many characters left. -/
  | keyNotString (remaining : Nat)
  /-- A text stands where something else is expected, with so many characters left after it. -/
  | textFound (text : String) (kind : FieldKind) (remaining : Nat)
  | malformed
  deriving DecidableEq

variable {R σ : Type}

/-- Whether a character may stand between tokens. -/
def isBlank (c : Char) : Bool := c == ' ' || c == '\n' || c == '\t' || c == '\r'

def skipBlank (cs : List Char) : List Char := cs.dropWhile isBlank

/-- Turns a missing result into a fault. -/
def orMalformed {α : Type} : Option α → Except Fault α
  | some a => .ok a
  | none => .error .malformed

/-- A number at the front of a text. -/
def number [Scalar R] [DecimalText R] (cs : List Char) : Except Fault (Json R × List Char) := do
  let (numeral, rest) ← orMalformed (Numeral.read? cs)
  return (← orMalformed numeral.value?, rest)

/-- What follows the colon after a key. -/
def afterColon (cs : List Char) : Except Fault (List Char) :=
  match skipBlank cs with
  | ':' :: rest => .ok (skipBlank rest)
  | _ => .error .malformed

/-- The key of an object's member, up to its colon. -/
def key (cs : List Char) : Except Fault (String × List Char) :=
  match cs with
  | '"' :: rest => do
    let (name, rest) ← orMalformed (Quoted.read? rest)
    return (name, ← afterColon rest)
  | '}' :: _ => .error .malformed
  | [] => .error .malformed
  | _ => .error (.keyNotString cs.length)

mutual

/-- A value at the front of a text. -/
def value [Scalar R] [DecimalText R] : (fuel : Nat) → List Char → Except Fault (Json R × List Char)
  | 0, _ => .error .malformed
  | fuel + 1, cs =>
    match cs with
    | 'n' :: 'u' :: 'l' :: 'l' :: rest => .ok (null, rest)
    | 't' :: 'r' :: 'u' :: 'e' :: rest => .ok (bool true, rest)
    | 'f' :: 'a' :: 'l' :: 's' :: 'e' :: rest => .ok (bool false, rest)
    | '"' :: rest => do
      let (s, rest) ← orMalformed (Quoted.read? rest)
      return (string s, rest)
    | '[' :: rest =>
      match skipBlank rest with
      | ']' :: rest => .ok (array [], rest)
      | rest => do
        let (elements, rest) ← elements fuel rest
        return (array elements, rest)
    | '{' :: rest =>
      match skipBlank rest with
      | '}' :: rest => .ok (object [], rest)
      | rest => do
        let (members, rest) ← members fuel rest
        return (object members, rest)
    | _ => number cs

/-- The elements of an array that is not empty, and its closing bracket. -/
def elements [Scalar R] [DecimalText R] : (fuel : Nat) → List Char → Except Fault (List (Json R) × List Char)
  | 0, _ => .error .malformed
  | fuel + 1, cs => do
    let (first, rest) ← value fuel cs
    match skipBlank rest with
    | ']' :: rest => return ([first], rest)
    | ',' :: rest =>
      let (others, rest) ← elements fuel (skipBlank rest)
      return (first :: others, rest)
    | _ => throw .malformed

/-- The members of an object that is not empty, and its closing brace. -/
def members [Scalar R] [DecimalText R] : (fuel : Nat) → List Char → Except Fault (List (String × Json R) × List Char)
  | 0, _ => .error .malformed
  | fuel + 1, cs => do
    let (name, rest) ← key cs
    let (first, rest) ← value fuel rest
    match skipBlank rest with
    | '}' :: rest => return ([(name, first)], rest)
    | ',' :: rest =>
      let (others, rest) ← members fuel (skipBlank rest)
      return ((name, first) :: others, rest)
    | _ => throw .malformed

end

/-- A container that has been opened. -/
inductive Container where
  | array
  | object
  deriving DecidableEq

/-- What comes next in a value that is passed over. -/
inductive Awaited where
  | value
  | key
  /-- A comma, or the end of the innermost container. -/
  | separator

/-- Passes over the next token inside the containers that are open. -/
def skipToken (awaited : Awaited) (opened : List Container) (cs : List Char) :
    Except Fault (Awaited × List Container × List Char) :=
  match awaited with
  | .value =>
    match cs with
    | 'n' :: 'u' :: 'l' :: 'l' :: rest => .ok (.separator, opened, rest)
    | 't' :: 'r' :: 'u' :: 'e' :: rest => .ok (.separator, opened, rest)
    | 'f' :: 'a' :: 'l' :: 's' :: 'e' :: rest => .ok (.separator, opened, rest)
    | '"' :: rest => do return (.separator, opened, ← orMalformed (Quoted.skip? rest))
    | '[' :: rest =>
      match skipBlank rest with
      | ']' :: rest => .ok (.separator, opened, rest)
      | rest => .ok (.value, .array :: opened, rest)
    | '{' :: rest =>
      match skipBlank rest with
      | '}' :: rest => .ok (.separator, opened, rest)
      | rest => .ok (.key, .object :: opened, rest)
    | _ => do return (.separator, opened, (← orMalformed (Numeral.read? cs)).2)
  | .key =>
    match cs with
    | '"' :: rest => do return (.value, opened, ← afterColon (← orMalformed (Quoted.skip? rest)))
    | [] => .error .malformed
    | _ => .error (.keyNotString cs.length)
  | .separator =>
    match opened, cs with
    | .array :: _, ',' :: rest => .ok (.value, opened, rest)
    | .object :: _, ',' :: rest => .ok (.key, opened, rest)
    | .array :: outer, ']' :: rest => .ok (.separator, outer, rest)
    | .object :: outer, '}' :: rest => .ok (.separator, outer, rest)
    | _, _ => .error .malformed

/-- Passes over tokens until all containers are closed. -/
def skipTokens : (fuel : Nat) → Awaited → List Container → List Char → Except Fault (List Char)
  | _, .separator, [], cs => .ok cs
  | 0, _, _, _ => .error .malformed
  | fuel + 1, awaited, opened, cs =>
    match skipToken awaited opened (skipBlank cs) with
    | .ok (awaited, opened, rest) => skipTokens fuel awaited opened rest
    | .error fault => .error fault

/-- Passes over the value at the front of a text. -/
def skip (cs : List Char) : Except Fault (List Char) := skipTokens (cs.length + 1) .value [] cs

/-- The members of an object that is not empty, each value being read by `step` as soon as its key is known. -/
def foldMembers (step : σ → String → List Char → Except Fault (σ × List Char)) :
    (fuel : Nat) → σ → List Char → Except Fault (σ × List Char)
  | 0, _, _ => .error .malformed
  | fuel + 1, s, cs => do
    let (name, rest) ← key cs
    let (s, rest) ← step s name rest
    match skipBlank rest with
    | '}' :: rest => return (s, rest)
    | ',' :: rest => foldMembers step fuel s (skipBlank rest)
    | _ => throw .malformed

/-- The elements of an array that is not empty, each read by `step`. -/
def foldElements (step : σ → List Char → Except Fault (σ × List Char)) :
    (fuel : Nat) → σ → List Char → Except Fault (σ × List Char)
  | 0, _, _ => .error .malformed
  | fuel + 1, s, cs => do
    let (s, rest) ← step s cs
    match skipBlank rest with
    | ']' :: rest => return (s, rest)
    | ',' :: rest => foldElements step fuel s (skipBlank rest)
    | _ => throw .malformed

/-- A text that stands where something else is expected. -/
def textFound (kind : FieldKind) (cs : List Char) : Except Fault (σ × List Char) := do
  let (text, rest) ← orMalformed (Quoted.read? cs)
  throw (.textFound text kind rest.length)

/-- A number that a typed field holds. -/
def numberField [Scalar R] [DecimalText R] (kind : FieldKind) (cs : List Char) : Except Fault (Json R × List Char) :=
  match cs with
  | '"' :: rest => textFound kind rest
  | _ => number cs

/-- A whole text that holds a record, read from an object member by member or from an array element by element. -/
def record (member : σ → String → List Char → Except Fault (σ × List Char))
    (element : σ → List Char → Except Fault (σ × List Char)) (start : σ) (cs : List Char) : Except Fault σ := do
  let fuel := cs.length + 1
  let (s, rest) ← match skipBlank cs with
    | '\x7b' :: rest =>
      match skipBlank rest with
      | '\x7d' :: rest => pure (start, rest)
      | rest => foldMembers member fuel start rest
    | '[' :: rest =>
      match skipBlank rest with
      | ']' :: rest => pure (start, rest)
      | rest => foldElements element fuel start rest
    | _ => throw .malformed
  if (skipBlank rest).isEmpty then return s else throw .malformed

/-- The line of the end of a text, counted from one, and how many bytes that line has. -/
def position (before : List Char) : Nat × Nat :=
  let line := (before.reverse.takeWhile (· != '\n')).reverse
  (before.count '\n' + 1, (String.ofList line).utf8ByteSize)

/-- What has been read of a text when so many characters are left. -/
def before (text : List Char) (remaining : Nat) : List Char := text.take (text.length - remaining)

end Reader

/-- The value that a whole text holds. -/
def parse {R : Type} [Scalar R] [DecimalText R] (text : String) : Except Reader.Fault (Json R) := do
  let cs := text.toList
  let (v, rest) ← Reader.value (cs.length + 1) (Reader.skipBlank cs)
  if (Reader.skipBlank rest).isEmpty then return v else throw .malformed

end CircuitSynthesis.Json
