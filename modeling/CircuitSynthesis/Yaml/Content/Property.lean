import CircuitSynthesis.Yaml.Token
import CircuitSynthesis.Yaml.Content.Quoted

/-!
# Names, tags and directives

What may stand in front of a node, and the lines that may stand in front of a document.
-/

namespace CircuitSynthesis.Yaml.Property

def textOf (cs : List Cell) : String := String.ofList (characters cs)

/-- The name of an anchor, after its first character. -/
def name? (cs : List Cell) : Option (String × List Cell) :=
  let (name, rest) := cs.span Cell.isWord
  if name.isEmpty then none
  else if endsWord rest || (front? rest).any (· ∈ ['?', ':', ',', ']', '\x7d', '%', '@', '\x60']) then
    some (textOf name, rest)
  else none

/-- Whether a character may stand in a tag; some may only between angle brackets or in a directive. -/
def isUri (enclosed : Bool) (c : Cell) : Bool :=
  c.isWord || c.char ∈ [';', '/', '?', ':', '@', '&', '=', '+', '$', '.', '!', '~', '*', '\'', '(', ')', '%'] ||
    (enclosed && c.char ∈ [',', '[', ']'])

/-- A byte written with a percent sign and two hexadecimal digits. -/
def octet? : List Cell → Option (Nat × List Cell)
  | p :: a :: b :: rest => do
    let n ← Quoted.hexValue? [a.char, b.char]
    if p.char == '%' then return (n, rest) else none
  | _ => none

/-- How many bytes a character has whose first byte is given, and the bits of it in that byte. -/
def leadingOctet? (n : Nat) : Option (Nat × Nat) :=
  if n < 0x80 then some (1, n)
  else if n < 0xC0 then none
  else if n < 0xE0 then some (2, n % 0x20)
  else if n < 0xF0 then some (3, n % 0x10)
  else if n < 0xF8 then some (4, n % 0x08)
  else none

/-- The code whose leading bits are given, completed by the bits of so many further bytes. -/
def trailingOctets? (bits : Nat) : Nat → List Cell → Option (Nat × List Cell)
  | 0, cs => some (bits, cs)
  | count + 1, cs => do
    let (n, rest) ← octet? cs
    if 0x80 ≤ n ∧ n < 0xC0 then trailingOctets? (bits * 0x40 + n % 0x40) count rest else none

/-- A character written as its bytes. Bytes that are not the shortest form of a character stand for U+FFFD. -/
def escapedOctets? (cs : List Cell) : Option (Char × List Cell) := do
  let (n, rest) ← octet? cs
  let (width, bits) ← leadingOctet? n
  let (code, rest) ← trailingOctets? bits (width - 1) rest
  match Quoted.character? code with
  | some c => return (if c.utf8Size = width then c else Char.ofNat 0xFFFD, rest)
  | none => return (Char.ofNat 0xFFFD, rest)

/-- The rest of a tag after some text. -/
def uriRest? (enclosed : Bool) : (fuel : Nat) → List Char → List Cell → Option (List Char × List Cell)
  | 0, _, _ => none
  | _, text, [] => some (text, [])
  | fuel + 1, text, c :: rest =>
    if c.char == '%' then do
      let (c, rest) ← escapedOctets? (c :: rest)
      uriRest? enclosed fuel (text ++ [c]) rest
    else if isUri enclosed c then uriRest? enclosed fuel (text ++ [c.char]) rest
    else some (text, c :: rest)

/-- The text of a tag, which a zero byte ends. -/
def uri? (enclosed : Bool) (cs : List Cell) : Option (String × List Cell) := do
  let (text, rest) ← uriRest? enclosed (cs.length + 1) [] cs
  return (String.ofList (text.takeWhile (·.toNat ≠ 0)), rest)

/-- The text of a tag, of which there must be something. -/
def someUri? (enclosed : Bool) (cs : List Cell) : Option (String × List Cell) :=
  if cs.head?.any (isUri enclosed) then uri? enclosed cs else none

/-- A handle: an exclamation mark, a word, and the second exclamation mark if there is one. -/
def handle? : List Cell → Option (List Cell × Bool × List Cell)
  | [] => none
  | c :: rest =>
    if c.char == '!' then
      let (name, rest) := rest.span Cell.isWord
      match rest with
      | d :: after => if d.char == '!' then some (name, true, after) else some (name, false, rest)
      | [] => some (name, false, [])
    else none

def handleText (name : List Cell) (closed : Bool) : String := "!" ++ textOf name ++ if closed then "!" else ""

/-- The handle and the suffix of a tag that is not between angle brackets. A lone exclamation mark is its own suffix. -/
def shorthand? (cs : List Cell) : Option ((String × String) × List Cell) := do
  let (name, closed, rest) ← handle? cs
  if closed then
    let (suffix, rest) ← someUri? false rest
    return ((handleText name true, suffix), rest)
  else
    let (more, rest) ← uri? false rest
    let suffix := textOf name ++ more
    return (if suffix.isEmpty then ("", "!") else ("!", suffix), rest)

/-- A tag between angle brackets. -/
def verbatim? (cs : List Cell) : Option ((String × String) × List Cell) := do
  let (suffix, rest) ← someUri? true (cs.drop 2)
  if beginsWith '>' rest then return (("", suffix), rest.drop 1) else none

/-- A tag in front. It ends a word, or inside brackets at a comma. -/
def tag? (inFlow : Bool) (cs : List Cell) : Option (TokenKind × List Cell) := do
  let ((handle, suffix), rest) ← if beginsWith '<' (cs.drop 1) then verbatim? cs else shorthand? cs
  if endsWord rest || (inFlow && beginsWith ',' rest) then return (.tag handle suffix, rest) else none

/-- A number in a version. -/
def versionNumber? (cs : List Cell) : Option (Nat × List Cell) :=
  let (digits, rest) := cs.span fun c => c.char.isDigit
  if digits.isEmpty || 9 < digits.length then none
  else some ((characters digits).foldl (fun n c => n * 10 + (c.toNat - '0'.toNat)) 0, rest)

/-- The version in a directive. -/
def version? (cs : List Cell) : Option (TokenKind × List Cell) := do
  let (major, rest) ← versionNumber? cs
  if !beginsWith '.' rest then none
  let (minor, rest) ← versionNumber? (rest.drop 1)
  return (.versionDirective major minor, rest)

/-- The handle and its meaning in a directive. -/
def meaning? (cs : List Cell) : Option (TokenKind × List Cell) := do
  let (name, closed, rest) ← handle? cs
  if !closed && !name.isEmpty then none
  if !rest.head?.any Cell.isBlank then none
  let (meaning, rest) ← someUri? true (skipBlanks rest)
  if endsWord rest then return (.tagDirective (handleText name closed) meaning, rest) else none

/-- A directive after its percent sign, and what follows its line. -/
def directive? (cs : List Cell) : Option (TokenKind × List Cell) := do
  let (name, rest) := cs.span Cell.isWord
  if name.isEmpty || !endsWord rest then none
  let (kind, rest) ← match textOf name with
    | "YAML" => version? (skipBlanks rest)
    | "TAG" => meaning? (skipBlanks rest)
    | _ => none
  return (kind, ← restOfLine? rest)

end CircuitSynthesis.Yaml.Property
