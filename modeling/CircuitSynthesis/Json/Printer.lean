import CircuitSynthesis.Json.Value

/-!
# Writing JSON text

The compact form has no space at all; the indented form has a member or element per line, two blanks deeper than its
container.

The two forms are `to_string` and `to_string_pretty` of `serde_json`.
-/

namespace CircuitSynthesis.Json

variable {R : Type}

/-- The lower-case hexadecimal digit of a value below sixteen. -/
def hexChar (n : Nat) : Char := "0123456789abcdef".toList.getD n '0'

/-- A character inside quotes. -/
def escapeChar (c : Char) : List Char :=
  match c with
  | '"' => ['\\', '"']
  | '\\' => ['\\', '\\']
  | '\n' => ['\\', 'n']
  | '\r' => ['\\', 'r']
  | '\t' => ['\\', 't']
  | c =>
    if c.toNat = 8 then ['\\', 'b']
    else if c.toNat = 12 then ['\\', 'f']
    else if c.toNat < 32 then ['\\', 'u', '0', '0', hexChar (c.toNat / 16), hexChar (c.toNat % 16)]
    else [c]

def quote (s : String) : String := "\"" ++ String.ofList (s.toList.flatMap escapeChar) ++ "\""

/-- A value that is neither a list nor an object. -/
def atom [DecimalText R] : Json R → String
  | bool b => if b then "true" else "false"
  | int i => toString i
  | float x => DecimalText.compact x
  | string s => quote s
  | _ => "null"

mutual

/-- The form without spaces. -/
def compact [DecimalText R] : Json R → String
  | array elements => "[" ++ ",".intercalate (compactElements elements) ++ "]"
  | object members => "\x7b" ++ ",".intercalate (compactMembers members) ++ "\x7d"
  | v => v.atom

def compactElements [DecimalText R] : List (Json R) → List String
  | [] => []
  | v :: rest => v.compact :: compactElements rest

def compactMembers [DecimalText R] : List (String × Json R) → List String
  | [] => []
  | (name, v) :: rest => (quote name ++ ":" ++ v.compact) :: compactMembers rest

end

/-- The beginning of a line at a depth. -/
def lineStart (depth : Nat) : String := "\n" ++ String.ofList (List.replicate (2 * depth) ' ')

/-- A bracketed list with an entry per line. -/
def bracketed (opening closing : String) (depth : Nat) (entries : List String) : String :=
  if entries.isEmpty then opening ++ closing
  else opening ++ ",".intercalate (entries.map (lineStart (depth + 1) ++ ·)) ++ lineStart depth ++ closing

mutual

/-- The indented form of a value that begins at a depth. -/
def indented [DecimalText R] (depth : Nat) : Json R → String
  | array elements => bracketed "[" "]" depth (indentedElements (depth + 1) elements)
  | object members => bracketed "\x7b" "\x7d" depth (indentedMembers (depth + 1) members)
  | v => v.atom

def indentedElements [DecimalText R] (depth : Nat) : List (Json R) → List String
  | [] => []
  | v :: rest => v.indented depth :: indentedElements depth rest

def indentedMembers [DecimalText R] (depth : Nat) : List (String × Json R) → List String
  | [] => []
  | (name, v) :: rest => (quote name ++ ": " ++ v.indented depth) :: indentedMembers depth rest

end

/-- The indented form of a whole value. -/
def pretty [DecimalText R] (v : Json R) : String := v.indented 0

end CircuitSynthesis.Json
