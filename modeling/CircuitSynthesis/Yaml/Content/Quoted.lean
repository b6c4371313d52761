import CircuitSynthesis.Yaml.Cell

/-!
# Quoted scalars

Text in single quotes, where a quote inside is written twice, or in double quotes, where a backslash begins an escape.
Line ends are folded in both; in double quotes a backslash takes one away. A line that separates documents must not
begin inside.
-/

namespace CircuitSynthesis.Yaml.Quoted

def hexDigit? (c : Char) : Option Nat :=
  if '0' ≤ c ∧ c ≤ '9' then some (c.toNat - '0'.toNat)
  else if 'a' ≤ c ∧ c ≤ 'f' then some (c.toNat - 'a'.toNat + 10)
  else if 'A' ≤ c ∧ c ≤ 'F' then some (c.toNat - 'A'.toNat + 10)
  else none

/-- The value of hexadecimal digits. -/
def hexValue? (cs : List Char) : Option Nat := cs.foldlM (fun n c => do return n * 16 + (← hexDigit? c)) 0

/-- The character with a code, unless the code is a surrogate's or too large. -/
def character? (code : Nat) : Option Char := if code.isValidChar then some (Char.ofNat code) else none

/-- The character of an escape that is a single letter. -/
def letter? : Char → Option Char
  | '0' => some (Char.ofNat 0)
  | 'a' => some (Char.ofNat 7)
  | 'b' => some (Char.ofNat 8)
  | 't' => some '\t'
  | '\t' => some '\t'
  | 'n' => some '\n'
  | 'v' => some (Char.ofNat 0xB)
  | 'f' => some (Char.ofNat 0xC)
  | 'r' => some '\r'
  | 'e' => some (Char.ofNat 0x1B)
  | ' ' => some ' '
  | '"' => some '"'
  | '/' => some '/'
  | '\\' => some '\\'
  | 'N' => some (Char.ofNat 0x85)
  | '_' => some (Char.ofNat 0xA0)
  | 'L' => some (Char.ofNat 0x2028)
  | 'P' => some (Char.ofNat 0x2029)
  | _ => none

/-- How many digits follow the letter of an escape with a code. -/
def codeLength? : Char → Option Nat
  | 'x' => some 2
  | 'u' => some 4
  | 'U' => some 8
  | _ => none

/-- The character of an escape after its backslash, and what follows. -/
def escape? : List Cell → Option (Char × List Cell)
  | [] => none
  | c :: rest =>
    match codeLength? c.char with
    | some n => do
      let digits := characters (rest.take n)
      if digits.length = n then return (← character? (← hexValue? digits), rest.drop n) else none
    | none => (letter? c.char).map fun c => (c, rest)

/-- The rest of a quoted scalar after its opening quote and some text. -/
def rest? (quote : Char) : (fuel : Nat) → List Char → List Cell → Option (List Char × List Cell)
  | 0, _, _ => none
  | _, _, [] => none
  | fuel + 1, text, c :: rest =>
    if atDocumentMark (c :: rest) then none
    else if c.isGap then
      let (gap, rest) := (c :: rest).span Cell.isGap
      rest? quote fuel (text ++ fold gap) rest
    else if c.char == quote then
      if quote == '\'' && beginsWith quote rest then rest? quote fuel (text ++ [quote]) (rest.drop 1)
      else some (text, rest)
    else if quote == '"' && c.char == '\\' then
      match rest.span Cell.isGap with
      | (b :: gap, after) =>
        if b.isBreak then rest? quote fuel (text ++ characters (gap.filter Cell.isBreak)) after
        else do
          let (c, rest) ← escape? rest
          rest? quote fuel (text ++ [c]) rest
      | ([], _) => do
        let (c, rest) ← escape? rest
        rest? quote fuel (text ++ [c]) rest
    else rest? quote fuel (text ++ [c.char]) rest

/-- The scalar after an opening quote, and what follows its closing quote. -/
def read? (quote : Char) (cs : List Cell) : Option (List Char × List Cell) := rest? quote (cs.length + 1) [] cs

end CircuitSynthesis.Yaml.Quoted
