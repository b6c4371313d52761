/-!
# Characters at their places

A YAML text is read as a list of cells, each a character with its place. `cells?` refuses a text with a character that
YAML does not allow. A line end of any kind is one cell: all become a line feed but the two Unicode separators, which
stay what they are.

The texts are those that `serde_yaml_ng` reads.
-/

namespace CircuitSynthesis.Yaml

/-- A place in a text. Everything is counted from zero and in characters. -/
structure Mark where
  index : Nat
  line : Nat
  column : Nat
  deriving DecidableEq

def Mark.start : Mark := ⟨0, 0, 0⟩

/-- The place after a character that stays on the line. -/
def Mark.next (m : Mark) : Mark := ⟨m.index + 1, m.line, m.column + 1⟩

/-- The place after a line end of so many characters. -/
def Mark.nextLine (m : Mark) (length : Nat) : Mark := ⟨m.index + length, m.line + 1, 0⟩

/-- A character at its place. -/
structure Cell where
  char : Char
  mark : Mark
  deriving DecidableEq

def Cell.column (c : Cell) : Nat := c.mark.column

/-- The line separator and the paragraph separator. -/
def isSeparator (c : Char) : Bool := c.toNat = 0x2028 || c.toNat = 0x2029

/-- Whether a character other than the separators ends a line. -/
def isLineEnd (c : Char) : Bool := c == '\n' || c == '\r' || c.toNat = 0x85

/-- Whether a character may stand in a text. -/
def isAllowed (c : Char) : Bool :=
  let n := c.toNat
  n = 0x9 || n = 0xA || n = 0xD || (0x20 ≤ n && n ≤ 0x7E) || n = 0x85 || (0xA0 ≤ n && n ≤ 0xD7FF) ||
    (0xE000 ≤ n && n ≤ 0xFFFD) || 0x10000 ≤ n

/-- The cells of a text that begins at a place. -/
def locate (m : Mark) : List Char → List Cell
  | [] => []
  | '\r' :: '\n' :: rest => ⟨'\n', m⟩ :: locate (m.nextLine 2) rest
  | c :: rest =>
    if isLineEnd c then ⟨'\n', m⟩ :: locate (m.nextLine 1) rest
    else if isSeparator c then ⟨c, m⟩ :: locate (m.nextLine 1) rest
    else ⟨c, m⟩ :: locate m.next rest

/-- The cells of a text all of whose characters are allowed. -/
def cells? (text : String) : Option (List Cell) :=
  if text.toList.all isAllowed then some (locate .start text.toList) else none

namespace Cell

def isBlank (c : Cell) : Bool := c.char == ' ' || c.char == '\t'

/-- Whether the cell ends a line. -/
def isBreak (c : Cell) : Bool := c.char == '\n' || isSeparator c.char

/-- Whether the cell stands between words. -/
def isGap (c : Cell) : Bool := c.isBlank || c.isBreak

/-- Whether the cell can be part of a name. -/
def isWord (c : Cell) : Bool := c.char.isAlphanum || c.char == '_' || c.char == '-'

end Cell

/-- The character in front, or nothing at the end. -/
def front? (cs : List Cell) : Option Char := cs.head?.map Cell.char

/-- Whether the character in front is the given one. -/
def beginsWith (c : Char) (cs : List Cell) : Bool := front? cs == some c

/-- Whether nothing, a blank or a line end comes next. -/
def endsWord (cs : List Cell) : Bool := cs.head?.all Cell.isGap

/-- The cells without the blanks in front. -/
def skipBlanks (cs : List Cell) : List Cell := cs.dropWhile Cell.isBlank

/-- The cells from the end of the line on. -/
def skipLine (cs : List Cell) : List Cell := cs.dropWhile fun c => !c.isBreak

def characters (cs : List Cell) : List Char := cs.map Cell.char

/-- Whether a line begins with three of a character that nothing else follows directly. -/
def atMark (mark : Char) (cs : List Cell) : Bool :=
  (cs.head?.all fun c => c.column = 0) && characters (cs.take 3) == [mark, mark, mark] && endsWord (cs.drop 3)

/-- Whether a line begins that separates documents. -/
def atDocumentMark (cs : List Cell) : Bool := atMark '-' cs || atMark '.' cs

/-- What follows the blanks and the comment at the end of a line, if there is nothing else on it. -/
def restOfLine? (cs : List Cell) : Option (List Cell) :=
  let cs := skipBlanks cs
  let cs := if beginsWith '#' cs then skipLine cs else cs
  match cs with
  | [] => some []
  | c :: rest => if c.isBreak then some rest else none

/-- What blanks and line ends between words stand for: blanks alone for themselves, a line feed for a space, and more line
ends for all but the first. A separator is never dropped. -/
def fold (gap : List Cell) : List Char :=
  match gap.filter Cell.isBreak with
  | [] => characters gap
  | first :: others =>
    if first.char == '\n' then if others.isEmpty then [' '] else characters others
    else characters (first :: others)

end CircuitSynthesis.Yaml
