import Mathlib
import CircuitSynthesis.Json.Printer
import CircuitSynthesis.Proofs.Json.Reading

/-!
# Texts are read back

`parse_compact` and `parse_pretty`: a value whose integers have 64 bits and whose other numbers are read back from their
texts is read back from both of its texts. The compact text has no blanks; in the indented one a line start goes before
each part and before the closing bracket.
-/

namespace CircuitSynthesis.Json

variable {R : Type} [Scalar R] [DecimalText R] {v : Json R} {lead tail : String}

/-- A list is read from the texts of its elements between brackets. -/
lemma Reads.array_of_entries (hlead : Blank lead.toList) (htail : Blank tail.toList) {elements : List (Json R)}
    {write : Json R → String} (h : ∀ v ∈ elements, Reads v (write v).toList) (hne : elements ≠ []) :
    Reads (.array elements)
      ("[" ++ ",".intercalate ((elements.map write).map (lead ++ ·)) ++ tail ++ "]").toList := by
  have helements : List.Forall₂ Reads elements (elements.map fun v => (write v).toList) :=
    List.forall₂_map_right_iff.2 (List.forall₂_same.2 h)
  have htext : ("[" ++ ",".intercalate ((elements.map write).map (lead ++ ·)) ++ tail ++ "]").toList =
      '[' :: ([','].intercalate ((elements.map fun v => (write v).toList).map (lead.toList ++ ·)) ++ tail.toList ++ [']']) := by
    simp only [String.toList_append, String.toList_intercalate, List.map_map, Function.comp_def]
    rfl
  rw [htext]
  exact .array hlead htail helements hne

/-- An object is read from the texts of its members between braces. -/
lemma Reads.object_of_entries (hlead : Blank lead.toList) (htail : Blank tail.toList)
    {members : List (String × Json R)} {write : String × Json R → String}
    (h : ∀ m ∈ members, ReadsMember m (write m).toList) (hne : members ≠ []) :
    Reads (.object members)
      ("\x7b" ++ ",".intercalate ((members.map write).map (lead ++ ·)) ++ tail ++ "\x7d").toList := by
  have hmembers : List.Forall₂ ReadsMember members (members.map fun m => (write m).toList) :=
    List.forall₂_map_right_iff.2 (List.forall₂_same.2 h)
  have htext : ("\x7b" ++ ",".intercalate ((members.map write).map (lead ++ ·)) ++ tail ++ "\x7d").toList =
      '{' :: ([','].intercalate ((members.map fun m => (write m).toList).map (lead.toList ++ ·)) ++ tail.toList ++ ['}']) := by
    simp only [String.toList_append, String.toList_intercalate, List.map_map, Function.comp_def]
    rfl
  rw [htext]
  exact .object hlead htail hmembers hne

section Compact

omit [Scalar R] in
/-- The elements of an array in compact form are written one by one. -/
lemma compactElements_eq_map (elements : List (Json R)) : compactElements elements = elements.map compact := by
  induction elements with
  | nil => rw [compactElements, List.map_nil]
  | cons v elements ih => rw [compactElements, List.map_cons, ih]

omit [Scalar R] in
/-- The members of an object in compact form are written one by one. -/
lemma compactMembers_eq_map (members : List (String × Json R)) :
    compactMembers members = members.map fun m => quote m.1 ++ ":" ++ m.2.compact := by
  induction members with
  | nil => rw [compactMembers, List.map_nil]
  | cons m members ih => rw [compactMembers, List.map_cons, ih]

/-- Nothing at all is blank. -/
lemma blank_empty : Blank "".toList := by simp [Blank]

/-- The compact text of a value is read back. -/
lemma Numbers.reads_compact (h : v.Numbers Legible) : Reads v v.compact.toList := by
  induction h with
  | null => exact .null
  | bool b => exact .bool b
  | int hlow hhigh => exact .int hlow hhigh
  | float hx => exact hx
  | string s => exact .string s
  | @array elements _ ih =>
    rw [compact, compactElements_eq_map]
    rcases eq_or_ne elements [] with rfl | hne
    · simpa using Reads.emptyArray (R := R)
    · have hread := Reads.array_of_entries blank_empty blank_empty ih hne
      simpa only [String.empty_append, String.append_empty, List.map_id'] using hread
  | @object members _ ih =>
    rw [compact, compactMembers_eq_map]
    rcases eq_or_ne members [] with rfl | hne
    · simpa using Reads.emptyObject (R := R)
    · have hmembers : ∀ m ∈ members, ReadsMember m (quote m.1 ++ ":" ++ m.2.compact).toList :=
        fun m hm => ⟨[], _, blank_empty, ih m hm, by simp⟩
      have hread := Reads.object_of_entries blank_empty blank_empty hmembers hne
      simpa only [String.empty_append, String.append_empty, List.map_id'] using hread

end Compact

section Indented

omit [Scalar R] in
/-- The elements of an indented array are written one by one. -/
lemma indentedElements_eq_map (depth : ℕ) (elements : List (Json R)) :
    indentedElements depth elements = elements.map (indented depth) := by
  induction elements with
  | nil => rw [indentedElements, List.map_nil]
  | cons v elements ih => rw [indentedElements, List.map_cons, ih]

omit [Scalar R] in
/-- The members of an indented object are written one by one. -/
lemma indentedMembers_eq_map (depth : ℕ) (members : List (String × Json R)) :
    indentedMembers depth members = members.map fun m => quote m.1 ++ ": " ++ m.2.indented depth := by
  induction members with
  | nil => rw [indentedMembers, List.map_nil]
  | cons m members ih => rw [indentedMembers, List.map_cons, ih]

/-- The start of a line is blank. -/
lemma blank_lineStart (depth : ℕ) : Blank (lineStart depth).toList := by
  intro c hc
  have hc : c = '\n' ∨ c = ' ' := by
    simp only [lineStart, String.toList_append, String.toList_ofList, List.mem_append] at hc
    exact hc.imp List.mem_singleton.1 List.eq_of_mem_replicate
  rcases hc with rfl | rfl <;> rfl

/-- The indented text of a value is read back. -/
lemma Numbers.reads_indented (h : v.Numbers Legible) (depth : ℕ) : Reads v (v.indented depth).toList := by
  induction h generalizing depth with
  | null => exact .null
  | bool b => exact .bool b
  | int hlow hhigh => exact .int hlow hhigh
  | float hx => exact hx
  | string s => exact .string s
  | @array elements _ ih =>
    rw [indented, indentedElements_eq_map, bracketed]
    rcases eq_or_ne elements [] with rfl | hne
    · simpa using Reads.emptyArray (R := R)
    · rw [if_neg (by simpa using hne)]
      exact Reads.array_of_entries (blank_lineStart _) (blank_lineStart _) (fun v hv => ih v hv _) hne
  | @object members _ ih =>
    rw [indented, indentedMembers_eq_map, bracketed]
    rcases eq_or_ne members [] with rfl | hne
    · simpa using Reads.emptyObject (R := R)
    · have hmembers : ∀ m ∈ members, ReadsMember m (quote m.1 ++ ": " ++ m.2.indented (depth + 1)).toList :=
        fun m hm => ⟨[' '], _, by simp [Blank, Reader.isBlank], ih m hm (depth + 1), by simp⟩
      rw [if_neg (by simpa using hne)]
      exact Reads.object_of_entries (blank_lineStart _) (blank_lineStart _) hmembers hne

end Indented

/-- A text that is read wherever it stands is parsed as a whole. -/
lemma Reads.parse_eq {text : String} (h : Reads v text.toList) : parse text = .ok v := by
  have hstart : Reader.skipBlank text.toList = text.toList := by
    simpa using h.skipBlank_append blank_empty []
  have hread := h (text.toList.length + 1) [] (by omega) (by simp [Delimited])
  rw [List.append_nil] at hread
  rw [parse]
  simp only [hstart, hread, bind, Except.bind]
  rfl

/-- A value is read back from its compact text. -/
theorem parse_compact (h : v.Numbers Legible) : parse v.compact = .ok v := h.reads_compact.parse_eq

/-- A value is read back from its indented text. -/
theorem parse_pretty (h : v.Numbers Legible) : parse v.pretty = .ok v := (h.reads_indented 0).parse_eq

end CircuitSynthesis.Json
