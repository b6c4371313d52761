import CircuitSynthesis.Yaml.Cell

/-!
# Plain scalars

Text without quotes. It ends before a colon that ends a word, before a comment, before a line that separates documents,
before a line that is not indented enough and, inside brackets, before a character with a meaning there.
-/

namespace CircuitSynthesis.Yaml.Plain

/-- Whether a character separates or encloses the parts of a collection in brackets. -/
def isFlowIndicator (c : Char) : Bool := c ∈ [',', '[', ']', '\x7b', '\x7d']

/-- Whether a colon is followed by something that it must not be followed by inside brackets. -/
def clashesAfterColon (cs : List Cell) : Bool := (front? cs).any fun c => c == '?' || isFlowIndicator c

/-- The word in front, which may be empty, and what follows it. -/
def word? (inFlow : Bool) : List Cell → Option (List Char × List Cell)
  | [] => some ([], [])
  | c :: rest =>
    if c.isGap then some ([], c :: rest)
    else if inFlow && c.char == ':' && clashesAfterColon rest then none
    else if (c.char == ':' && endsWord rest) || (inFlow && isFlowIndicator c.char) then some ([], c :: rest)
    else (word? inFlow rest).map fun (text, rest) => (c.char :: text, rest)

/-- Whether a tab stands where the indentation of a new line is not complete. -/
def hasTabIndent (margin : Nat) (gap : List Cell) : Bool :=
  (gap.dropWhile fun c => !c.isBreak).any fun c => c.char == '\t' && c.column < margin

/-- A plain scalar that has been read. -/
structure Result where
  text : List Char
  /-- Whether line ends lie between the text and what follows it. -/
  atNewLine : Bool
  rest : List Cell

/-- The rest of a plain scalar after some text and a gap. Lines in a block must begin at the margin or beyond. -/
def rest? (inFlow : Bool) (margin : Nat) : (fuel : Nat) → List Char → List Cell → List Cell → Option Result
  | 0, _, _, _ => none
  | fuel + 1, text, gap, cs =>
    let done : Result := ⟨text, gap.any Cell.isBreak, cs⟩
    if atDocumentMark cs || beginsWith '#' cs then some done
    else do
      let (word, rest) ← word? inFlow cs
      let (text, gap) := if word.isEmpty then (text, gap) else (text ++ fold gap ++ word, [])
      match rest.span Cell.isGap with
      | ([], rest) => return ⟨text, gap.any Cell.isBreak, rest⟩
      | (more, rest) =>
        if hasTabIndent margin more then none
        else if !inFlow && rest.head?.any fun c => c.column < margin then return ⟨text, more.any Cell.isBreak, rest⟩
        else rest? inFlow margin fuel text more rest

/-- The plain scalar in front. -/
def read? (inFlow : Bool) (margin : Nat) (cs : List Cell) : Option Result :=
  rest? inFlow margin (cs.length + 1) [] [] cs

end CircuitSynthesis.Yaml.Plain
