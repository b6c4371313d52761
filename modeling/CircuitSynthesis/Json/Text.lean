/-!
# Texts in JSON

A text stands in double quotes; a backslash begins an escape. `Quoted.read?` keeps the characters and refuses half of a
surrogate pair, `Quoted.skip?` only finds the closing quote and lets such a half pass.

These are the strings that `serde_json` reads.
-/

namespace CircuitSynthesis.Json.Quoted

def hexDigit? (c : Char) : Option Nat :=
  if '0' ≤ c ∧ c ≤ '9' then some (c.toNat - '0'.toNat)
  else if 'a' ≤ c ∧ c ≤ 'f' then some (c.toNat - 'a'.toNat + 10)
  else if 'A' ≤ c ∧ c ≤ 'F' then some (c.toNat - 'A'.toNat + 10)
  else none

/-- A code unit written with four hexadecimal digits. -/
def codeUnit? : List Char → Option (Nat × List Char)
  | a :: b :: c :: d :: rest => do
    let a ← hexDigit? a
    let b ← hexDigit? b
    let c ← hexDigit? c
    let d ← hexDigit? d
    return (a * 4096 + b * 256 + c * 16 + d, rest)
  | _ => none

/-- A character written with its code, or with the two codes of a surrogate pair. -/
def escapedCode? (cs : List Char) : Option (Char × List Char) := do
  let (high, rest) ← codeUnit? cs
  if 0xD800 ≤ high ∧ high < 0xDC00 then
    match rest with
    | '\\' :: 'u' :: rest =>
      let (low, rest) ← codeUnit? rest
      if 0xDC00 ≤ low ∧ low < 0xE000 then
        return (Char.ofNat (0x10000 + (high - 0xD800) * 0x400 + (low - 0xDC00)), rest)
      else none
    | _ => none
  else if 0xDC00 ≤ high ∧ high < 0xE000 then none
  else return (Char.ofNat high, rest)

/-- The character that a letter after a backslash stands for. -/
def escapedLetter? : Char → Option Char
  | '"' => some '"'
  | '\\' => some '\\'
  | '/' => some '/'
  | 'b' => some (Char.ofNat 8)
  | 'f' => some (Char.ofNat 12)
  | 'n' => some '\n'
  | 'r' => some '\r'
  | 't' => some '\t'
  | _ => none

/-- The rest of a text after its opening quote, the characters read so far coming last first. -/
def readRest? : (fuel : Nat) → List Char → List Char → Option (String × List Char)
  | 0, _, _ => none
  | fuel + 1, done, cs =>
    match cs with
    | '"' :: rest => some (String.ofList done.reverse, rest)
    | '\\' :: 'u' :: rest => do
      let (c, rest) ← escapedCode? rest
      readRest? fuel (c :: done) rest
    | '\\' :: c :: rest => do readRest? fuel ((← escapedLetter? c) :: done) rest
    | c :: rest => if c.toNat < 32 then none else readRest? fuel (c :: done) rest
    | [] => none

/-- The text whose opening quote has been read. -/
def read? (cs : List Char) : Option (String × List Char) := readRest? (cs.length + 1) [] cs

/-- What follows the text whose opening quote has been read. -/
def skip? : List Char → Option (List Char)
  | '"' :: rest => some rest
  | '\\' :: 'u' :: a :: b :: c :: d :: rest =>
    if [a, b, c, d].all fun digit => (hexDigit? digit).isSome then skip? rest else none
  | '\\' :: c :: rest => if (escapedLetter? c).isSome then skip? rest else none
  | c :: rest => if c.toNat < 32 then none else skip? rest
  | [] => none

end CircuitSynthesis.Json.Quoted
