import CircuitSynthesis.Yaml.Token
import CircuitSynthesis.Yaml.Content.Plain
import CircuitSynthesis.Yaml.Content.Block
import CircuitSynthesis.Yaml.Content.Property

/-!
# Cutting a text into tokens

The lexer goes over the cells once. Indentation opens and closes block collections. That a node was a key shows only at
the colon after it, so the lexer remembers on each level of brackets a candidate for a key: a colon puts the missing
tokens in front of it, and a candidate that is on another line or too far back is given up. Where the text breaks the
rules, the tokens that are certain by then are what it holds.

The tokens are those of the scanner in `serde_yaml_ng`.
-/

namespace CircuitSynthesis.Yaml

/-- A node that may turn out to be a key. -/
structure Candidate where
  /-- The number of its first token. -/
  token : Nat
  /-- Whether it cannot be anything but a key. -/
  isRequired : Bool
  mark : Mark

/-- How far a key may reach, in characters. -/
def longestKey : Nat := 1024

/-- Whether a key that begins with the candidate would end too late, if it went on to a place. -/
def Candidate.isStale (c : Candidate) (m : Mark) : Bool := c.mark.line < m.line || c.mark.index + longestKey < m.index

/-- The tokens so far, and what is remembered of the text before. -/
structure Lexer where
  tokens : Array Token
  /-- The columns of the open block collections, the innermost first. -/
  columns : List Nat
  /-- The candidate on the innermost level of brackets. -/
  candidate : Option Candidate
  /-- The candidates on the levels outside. -/
  outer : List (Option Candidate)
  /-- Whether a key may begin here. -/
  allowsKey : Bool

namespace Lexer

def start : Lexer := ⟨#[], [], none, [], true⟩

def inFlow (l : Lexer) : Bool := !l.outer.isEmpty

/-- The least column that is deeper than the innermost block collection. -/
def margin (l : Lexer) : Nat :=
  match l.columns with
  | [] => 0
  | column :: _ => column + 1

def push (l : Lexer) (kind : TokenKind) (m : Mark) : Lexer := { l with tokens := l.tokens.push ⟨kind, m⟩ }

/-- Puts a token in front of the one with a number. -/
def insert (l : Lexer) (number : Nat) (kind : TokenKind) (m : Mark) : Lexer :=
  { l with tokens := l.tokens.insertIdxIfInBounds number ⟨kind, m⟩ }

/-- Opens a block collection at a column that is deeper than the surroundings; its token gets a number. Inside brackets
there are none. -/
def openBlock (l : Lexer) (column number : Nat) (kind : TokenKind) (m : Mark) : Lexer :=
  if l.inFlow || column < l.margin then l else { l.insert number kind m with columns := column :: l.columns }

/-- The tokens that close the collections deeper than a column, and the columns that are left. -/
def closing (column : Nat) (m : Mark) : List Nat → List Token × List Nat
  | [] => ([], [])
  | c :: rest =>
    if column < c then
      let (tokens, left) := closing column m rest
      (⟨.blockEnd, m⟩ :: tokens, left)
    else ([], c :: rest)

/-- Closes the block collections deeper than a column. -/
def closeBeyond (l : Lexer) (column : Nat) (m : Mark) : Lexer :=
  if l.inFlow then l
  else
    let (tokens, columns) := closing column m l.columns
    { l with tokens := l.tokens ++ tokens, columns := columns }

def closeAll (l : Lexer) (m : Mark) : Lexer :=
  if l.inFlow then l
  else { l with tokens := l.tokens ++ l.columns.map fun _ => (⟨.blockEnd, m⟩ : Token), columns := [] }

/-- Gives up a candidate that is stale at a place; a required one must not be. -/
def dropStale? (m : Mark) (candidate : Option Candidate) : Option (Option Candidate) :=
  match candidate with
  | some c => if c.isStale m then if c.isRequired then none else some none else some (some c)
  | none => some none

/-- Gives up the candidates that are stale at a place. -/
def forgetStale? (l : Lexer) (m : Mark) : Option Lexer := do
  return { l with candidate := ← dropStale? m l.candidate, outer := ← l.outer.mapM (dropStale? m) }

/-- Gives up the innermost candidate; a required one must not be. -/
def forget? (l : Lexer) : Option Lexer :=
  if l.candidate.any Candidate.isRequired then none else some { l with candidate := none }

/-- Remembers the node that begins at a place as a candidate, if a key may begin there. -/
def remember? (l : Lexer) (m : Mark) : Option Lexer :=
  if l.allowsKey then do
    let isRequired := !l.inFlow && l.columns.head?.any (· = m.column)
    return { ← l.forget? with candidate := some ⟨l.tokens.size, isRequired, m⟩ }
  else some l

/-- Tells whether a key may begin next. -/
def thenKey (l : Lexer) (allowed : Bool) : Lexer := { l with allowsKey := allowed }

/-- Passes over what stands between tokens. A line end outside brackets allows a key. -/
def skipGap (allowsKey inFlow : Bool) : (inComment : Bool) → List Cell → Bool × List Cell
  | _, [] => (allowsKey, [])
  | inComment, c :: rest =>
    if c.isBreak then skipGap (allowsKey || !inFlow) inFlow false rest
    else if inComment || c.char == '#' then skipGap allowsKey inFlow true rest
    else if c.char == ' ' || (c.char == '\t' && (inFlow || !allowsKey)) then skipGap allowsKey inFlow false rest
    else if c.column = 0 && c.char.toNat = 0xFEFF then skipGap allowsKey inFlow false rest
    else (allowsKey, c :: rest)

/-- An opening bracket or brace. -/
def openFlow? (l : Lexer) (kind : TokenKind) (m : Mark) : Option Lexer := do
  let l ← l.remember? m
  return { (l.push kind m).thenKey true with candidate := none, outer := l.candidate :: l.outer }

/-- A closing bracket or brace. -/
def closeFlow? (l : Lexer) (kind : TokenKind) (m : Mark) : Option Lexer := do
  let l ← l.forget?
  let l := match l.outer with
    | candidate :: outer => { l with candidate := candidate, outer := outer }
    | [] => l
  return (l.push kind m).thenKey false

/-- A hyphen before an entry. -/
def entry? (l : Lexer) (m : Mark) : Option Lexer := do
  if !l.inFlow && !l.allowsKey then none
  let l ← (l.openBlock m.column l.tokens.size .blockSequenceStart m).forget?
  return (l.push .blockEntry m).thenKey true

/-- A question mark before a key. -/
def key? (l : Lexer) (m : Mark) : Option Lexer := do
  if !l.inFlow && !l.allowsKey then none
  let l ← (l.openBlock m.column l.tokens.size .blockMappingStart m).forget?
  return (l.push .key m).thenKey (!l.inFlow)

/-- A colon before a value. It makes a key of the candidate, if there is one. -/
def value? (l : Lexer) (m : Mark) : Option Lexer :=
  match l.candidate with
  | some c =>
    let l := (l.insert c.token .key c.mark).openBlock c.mark.column c.token .blockMappingStart c.mark
    some { (l.push .value m).thenKey false with candidate := none }
  | none => do
    if !l.inFlow && !l.allowsKey then none
    return ((l.openBlock m.column l.tokens.size .blockMappingStart m).push .value m).thenKey (!l.inFlow)

/-- Whether a plain scalar may begin with a character. -/
def beginsPlain (inFlow : Bool) (c : Char) (rest : List Cell) : Bool :=
  if c == '-' then !rest.head?.any Cell.isBlank
  else if c == '?' || c == ':' then !inFlow && !endsWord rest
  else !(Plain.isFlowIndicator c || c ∈ ['#', '&', '*', '!', '|', '>', '\'', '"', '%', '@', '\x60'])

/-- A directive or a line that separates documents ends all block collections. -/
def leaveDocument? (l : Lexer) (m : Mark) : Option Lexer := do return (← (l.closeAll m).forget?).thenKey false

/-- A name with a character in front. -/
def named? (l : Lexer) (kind : String → TokenKind) (m : Mark) (rest : List Cell) : Option (Lexer × List Cell) := do
  let l ← l.remember? m
  let (name, rest) ← Property.name? rest
  return ((l.push (kind name) m).thenKey false, rest)

/-- A block scalar after its first character. -/
def blockScalar? (l : Lexer) (style : Style) (m : Mark) (rest : List Cell) : Option (Lexer × List Cell) := do
  let l ← l.forget?
  let (text, rest) ← Block.read? (style == .folded) (l.columns.headD 0) l.margin rest
  return ((l.push (.scalar style (String.ofList text)) m).thenKey true, rest)

/-- A quoted scalar after its opening quote. -/
def quotedScalar? (l : Lexer) (quote : Char) (m : Mark) (rest : List Cell) : Option (Lexer × List Cell) := do
  let l ← l.remember? m
  let (text, rest) ← Quoted.read? quote rest
  return ((l.push (.scalar .quoted (String.ofList text)) m).thenKey false, rest)

def plainScalar? (l : Lexer) (m : Mark) (cs : List Cell) : Option (Lexer × List Cell) := do
  let l ← l.remember? m
  let r ← Plain.read? l.inFlow l.margin cs
  return ((l.push (.scalar .plain (String.ofList r.text)) m).thenKey r.atNewLine, r.rest)

/-- The token in front, and what follows it. -/
def token? (l : Lexer) (c : Cell) (rest : List Cell) : Option (Lexer × List Cell) :=
  let m := c.mark
  let cs := c :: rest
  let indicates := l.inFlow || endsWord rest
  if c.column = 0 && c.char == '%' then do
    let l ← l.leaveDocument? m
    let (kind, rest) ← Property.directive? rest
    return (l.push kind m, rest)
  else if atMark '-' cs then do return ((← l.leaveDocument? m).push .documentStart m, cs.drop 3)
  else if atMark '.' cs then do return ((← l.leaveDocument? m).push .documentEnd m, cs.drop 3)
  else if c.char == '[' then do return (← l.openFlow? .flowSequenceStart m, rest)
  else if c.char == '\x7b' then do return (← l.openFlow? .flowMappingStart m, rest)
  else if c.char == ']' then do return (← l.closeFlow? .flowSequenceEnd m, rest)
  else if c.char == '\x7d' then do return (← l.closeFlow? .flowMappingEnd m, rest)
  else if c.char == ',' then do return (((← l.forget?).push .flowEntry m).thenKey true, rest)
  else if c.char == '-' && endsWord rest then do return (← l.entry? m, rest)
  else if c.char == '?' && indicates then do return (← l.key? m, rest)
  else if c.char == ':' && indicates then do return (← l.value? m, rest)
  else if c.char == '*' then l.named? .alias m rest
  else if c.char == '&' then l.named? .anchor m rest
  else if c.char == '!' then do
    let l ← l.remember? m
    let (kind, rest) ← Property.tag? l.inFlow cs
    return ((l.push kind m).thenKey false, rest)
  else if c.char == '|' && !l.inFlow then l.blockScalar? .literal m rest
  else if c.char == '>' && !l.inFlow then l.blockScalar? .folded m rest
  else if c.char == '\'' || c.char == '"' then l.quotedScalar? c.char m rest
  else if !c.isGap && beginsPlain l.inFlow c.char rest then l.plainScalar? m cs
  else none

/-- The end of the text closes everything. No candidate can become a key any more. -/
def finish? (l : Lexer) : Option Lexer :=
  if (l.candidate :: l.outer).any fun candidate => candidate.any Candidate.isRequired then none
  else some { (l.closeAll .start).push .textEnd .start with candidate := none, outer := [] }

/-- The tokens that no candidate can change any more. -/
def certain (l : Lexer) : List Token :=
  match (l.candidate :: l.outer).filterMap (Option.map Candidate.token) with
  | [] => l.tokens.toList
  | first :: others => l.tokens.toList.take (others.foldl min first)

/-- The tokens of the cells that are left. -/
def run : (fuel : Nat) → Lexer → List Cell → List Token
  | 0, l, _ => l.certain
  | fuel + 1, l, cs =>
    match skipGap l.allowsKey l.inFlow false cs with
    | (_, []) => (l.finish?.getD l).certain
    | (allowsKey, c :: rest) =>
      let next := do
        let l ← (l.thenKey allowsKey).forgetStale? c.mark
        (l.closeBeyond c.column c.mark).token? c rest
      match next with
      | some (l, rest) => run fuel l rest
      | none => l.certain

end Lexer

/-- The tokens of a text. The last one marks the end of the text, unless the text breaks the rules. -/
def tokens (text : String) : List Token :=
  match cells? text with
  | some cs => Lexer.run (cs.length + 1) .start cs
  | none => []

end CircuitSynthesis.Yaml
