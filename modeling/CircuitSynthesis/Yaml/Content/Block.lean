import CircuitSynthesis.Yaml.Cell

/-!
# Block scalars

Text on indented lines after a header. Literal text keeps its line ends, folded text joins lines that begin with no
blank. The header may tell the indentation, which otherwise is that of the first line, and what becomes of the line ends
at the end.
-/

namespace CircuitSynthesis.Yaml.Block

/-- What becomes of the line ends at the end of a block scalar. -/
inductive Chomping where
  /-- All are dropped. -/
  | strip
  /-- One is kept. -/
  | clip
  /-- All are kept. -/
  | keep
  deriving DecidableEq

/-- The header of a block scalar. -/
structure Header where
  chomping : Chomping
  /-- The indentation relative to the surroundings, if it is told. -/
  increment : Option Nat

/-- The chomping in front, if it is told. -/
def chomping? : List Cell → Option (Chomping × List Cell)
  | [] => none
  | c :: rest => if c.char == '+' then some (.keep, rest) else if c.char == '-' then some (.strip, rest) else none

/-- The indentation in front, if it is told; it must not be zero. -/
def increment? : List Cell → Option (Option Nat × List Cell)
  | [] => some (none, [])
  | c :: rest =>
    if c.char == '0' then none
    else if c.char.isDigit then some (some (c.char.toNat - '0'.toNat), rest)
    else some (none, c :: rest)

/-- The header after its first character; nothing but a comment may follow it on its line. -/
def header? (cs : List Cell) : Option (Header × List Cell) := do
  let (header, cs) ← match chomping? cs with
    | some (chomping, cs) => do
      let (increment, cs) ← increment? cs
      pure (⟨chomping, increment⟩, cs)
    | none => do
      let (increment, cs) ← increment? cs
      match increment.isSome, chomping? cs with
      | true, some (chomping, cs) => pure (⟨chomping, increment⟩, cs)
      | _, _ => pure (⟨.clip, increment⟩, cs)
  return (header, ← restOfLine? cs)

/-- Whether the indentation goes on with a cell. Without a limit it does until something else than a space comes. -/
def indents (limit : Option Nat) (c : Cell) : Bool := limit.all fun limit => c.column < limit

/-- The empty lines in front. The result holds their ends, the deepest column met, and what follows the indentation of the
next line. A tab must not stand in an indentation. -/
def emptyLines? (limit : Option Nat) (breaks : List Char) (deepest : Nat) : List Cell → Option (List Char × Nat × List Cell)
  | [] => some (breaks, deepest, [])
  | c :: rest =>
    let deepest := max deepest c.column
    if indents limit c && c.char == ' ' then emptyLines? limit breaks deepest rest
    else if indents limit c && c.char == '\t' then none
    else if c.isBreak then emptyLines? limit (breaks ++ [c.char]) deepest rest
    else some (breaks, deepest, c :: rest)

/-- Whether a line begins with a blank. -/
def beginsBlank (cs : List Cell) : Bool := cs.head?.any Cell.isBlank

/-- A block scalar on the way: the text so far, the end of its last line, and the empty lines after it. -/
structure Progress where
  /-- The text without the last line end. -/
  text : List Char
  /-- The end of the last line. -/
  lastBreak : List Char
  /-- The ends of the empty lines after it. -/
  breaks : List Char
  /-- Whether the last line began with a blank. -/
  wasBlank : Bool

/-- What stands between the text so far and a line that follows. -/
def Progress.joint (p : Progress) (folded isBlank : Bool) : List Char :=
  if folded && p.lastBreak == ['\n'] && !p.wasBlank && !isBlank then if p.breaks.isEmpty then [' '] else p.breaks
  else p.lastBreak ++ p.breaks

/-- The text with the line ends that the chomping leaves. -/
def Progress.finish (p : Progress) : Chomping → List Char
  | .strip => p.text
  | .clip => p.text ++ p.lastBreak
  | .keep => p.text ++ p.lastBreak ++ p.breaks

/-- The lines at the column of the scalar. -/
def lines? (folded : Bool) (column : Nat) : (fuel : Nat) → Progress → List Cell → Option (Progress × List Cell)
  | 0, _, _ => none
  | fuel + 1, p, cs =>
    if cs.head?.any fun c => c.column = column then do
      let (line, rest) := cs.span fun c => !c.isBreak
      let text := p.text ++ p.joint folded (beginsBlank cs) ++ characters line
      let (breaks, _, next) ← emptyLines? (some column) [] 0 (rest.drop 1)
      lines? folded column fuel ⟨text, characters (rest.take 1), breaks, beginsBlank cs⟩ next
    else some (p, cs)

/-- A block scalar after its first character, and what follows it. The margin is the least column that is deeper than the
surroundings, and `parent` is the column that an indentation in the header is added to. -/
def read? (folded : Bool) (parent margin : Nat) (cs : List Cell) : Option (List Char × List Cell) := do
  let (header, cs) ← header? cs
  let limit := header.increment.map (parent + ·)
  let (breaks, deepest, cs) ← emptyLines? limit [] 0 cs
  let column := limit.getD (max deepest (max margin 1))
  let (p, rest) ← lines? folded column (cs.length + 1) ⟨[], [], breaks, false⟩ cs
  return (p.finish header.chomping, rest)

end CircuitSynthesis.Yaml.Block
