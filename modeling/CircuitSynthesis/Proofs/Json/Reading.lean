import Mathlib
import CircuitSynthesis.Json.Parser
import CircuitSynthesis.Proofs.Json.Integers
import CircuitSynthesis.Proofs.Json.Quoted
import CircuitSynthesis.Proofs.Record.Codec

/-!
# Reading what was written

`Reads v text` says that a text is read as a value wherever it stands. It holds of the texts of values without parts, and
of a list or an object as soon as it holds of the parts, whatever blanks stand between the tokens. Both ways of writing
put blanks at such places only, so each gives a text that is read back.
-/

namespace CircuitSynthesis.Json

open Reader

/-- Whether all characters are blanks. -/
def Blank (cs : List Char) : Prop := ∀ c ∈ cs, isBlank c = true

/-- Whether a text is empty or begins with what can follow a value: a blank, a comma or a closing bracket. -/
def Delimited (rest : List Char) : Prop := ∀ c ∈ rest.head?, isBlank c = true ∨ c = ',' ∨ c = ']' ∨ c = '}'

section Blanks

variable {blanks rest : List Char} {c : Char}

/-- Blanks in front of anything are skipped. -/
lemma skipBlank_append (h : Blank blanks) (rest : List Char) : skipBlank (blanks ++ rest) = skipBlank rest :=
  List.dropWhile_append_of_pos h

/-- What does not begin with a blank is not skipped. -/
lemma skipBlank_cons (hc : isBlank c = false) (rest : List Char) : skipBlank (c :: rest) = c :: rest :=
  List.dropWhile_cons_of_neg (by simp [hc])

/-- A blank, a comma and the closing brackets end a value. -/
lemma delimited_cons (h : isBlank c = true ∨ c = ',' ∨ c = ']' ∨ c = '}') (rest : List Char) : Delimited (c :: rest) := by
  rintro d hd
  obtain rfl := Option.some.inj hd
  exact h

/-- Blanks in front of what ends a value end it too. -/
lemma Blank.delimited_append (h : Blank blanks) (hrest : Delimited rest) : Delimited (blanks ++ rest) := by
  cases blanks with
  | nil => exact hrest
  | cons c blanks => exact delimited_cons (.inl (h c List.mem_cons_self)) _

/-- The four blanks. -/
lemma eq_of_isBlank (h : isBlank c = true) : c = ' ' ∨ c = '\n' ∨ c = '\t' ∨ c = '\r' := by
  simpa [isBlank, or_assoc] using h

/-- What ends a value ends a number. -/
lemma Delimited.ends (h : Delimited rest) : Numeral.Ends rest := by
  intro c hc
  rcases h c hc with hc | rfl | rfl | rfl
  · rcases eq_of_isBlank hc with rfl | rfl | rfl | rfl <;> decide
  all_goals decide

end Blanks

variable {R : Type} [Scalar R] [DecimalText R] {v : Json R} {text : List Char}

/-- Whether a text is read as a value wherever it stands, in as many steps as it has characters. -/
def Reads (v : Json R) (text : List Char) : Prop :=
  ∀ fuel rest, text.length ≤ fuel → Delimited rest → value fuel (text ++ rest) = .ok (v, rest)

/-- Whether a number is read back from its text. -/
def Legible (x : R) : Prop := Reads (float x) (DecimalText.compact x).toList

/-- What begins like a number is read as one. -/
lemma value_of_numeral {c : Char} (h : c = '-' ∨ c.isDigit = true) (fuel : ℕ) (cs : List Char) :
    value (R := R) (fuel + 1) (c :: cs) = number (c :: cs) := by
  have hne {d : Char} (hd : ¬ (d = '-' ∨ d.isDigit = true)) : c ≠ d := fun heq => hd (heq ▸ h)
  have hstart : c ≠ 'n' ∧ c ≠ 't' ∧ c ≠ 'f' ∧ c ≠ '"' ∧ c ≠ '[' ∧ c ≠ '{' :=
    ⟨hne (by decide), hne (by decide), hne (by decide), hne (by decide), hne (by decide), hne (by decide)⟩
  simp [value, hstart]

namespace Reads

/-- A text that is not empty takes a step to be read at all. -/
lemma of_succ (hne : text ≠ []) (h : ∀ fuel rest, text.length ≤ fuel + 1 → Delimited rest →
    value (fuel + 1) (text ++ rest) = .ok (v, rest)) : Reads v text := by
  rintro (_ | fuel) rest hfuel hrest
  · exact absurd (List.length_eq_zero_iff.1 (Nat.le_zero.1 hfuel)) hne
  · exact h fuel rest hfuel hrest

/-- A text that is read as a value begins with neither a blank nor a closing bracket. -/
lemma exists_cons (h : Reads v text) : ∃ c cs, text = c :: cs ∧ isBlank c = false ∧ c ≠ ']' ∧ c ≠ '}' := by
  have hread := h text.length [] le_rfl (by simp [Delimited])
  rw [List.append_nil] at hread
  cases text with
  | nil => cases hread
  | cons c cs =>
    refine ⟨c, cs, rfl, ?_, ?_, ?_⟩
    · refine Bool.eq_false_iff.2 fun hblank => ?_
      rcases eq_of_isBlank hblank with rfl | rfl | rfl | rfl <;> cases hread
    · rintro rfl
      cases hread
    · rintro rfl
      cases hread

/-- The text of nothing is read back. -/
lemma null : Reads (null : Json R) "null".toList :=
  of_succ (by decide) fun _ _ _ _ => rfl

/-- The text of a truth value is read back. -/
lemma bool (b : Bool) : Reads (bool b : Json R) (if b then "true" else "false").toList := by
  cases b
  · exact of_succ (by decide) fun _ _ _ _ => rfl
  · exact of_succ (by decide) fun _ _ _ _ => rfl

/-- A quoted text is read back. -/
lemma string (s : String) : Reads (string s : Json R) (quote s).toList := by
  rw [toList_quote]
  refine of_succ (List.cons_ne_nil _ _) fun fuel rest _ _ => ?_
  rw [List.cons_append, List.append_assoc, List.singleton_append, value.eq_def]
  simp only [Quoted.read?_flatMap_escapeChar, orMalformed]
  rfl

/-- An integer from the least signed to the largest unsigned word is read back. -/
lemma int {i : ℤ} (hlow : -2 ^ 63 ≤ i) (hhigh : i < 2 ^ 64) : Reads (int i : Json R) (toString i).toList := by
  rw [Numeral.toList_toString_int]
  have hcons : ∃ c cs, Numeral.signText (i < 0) ++ Nat.toDigits 10 i.natAbs = c :: cs ∧ (c = '-' ∨ c.isDigit = true) := by
    cases hi : decide (i < 0) with
    | true => exact ⟨'-', _, rfl, .inl rfl⟩
    | false =>
      obtain ⟨c, cs, hdigits⟩ := List.exists_cons_of_ne_nil (Nat.toDigits_ne_nil (b := 10) (n := i.natAbs))
      exact ⟨c, cs, hdigits, .inr (Nat.isDigit_of_mem_toDigits (by decide) (by decide) (hdigits ▸ List.mem_cons_self))⟩
  refine of_succ (by simp) fun fuel rest _ hrest => ?_
  have hnumber : number (Numeral.signText (i < 0) ++ (Nat.toDigits 10 i.natAbs ++ rest)) =
      .ok ((Json.int i : Json R), rest) := by
    rw [number, Numeral.read?_toDigits _ _ hrest.ends]
    simp only [orMalformed, bind, Except.bind, Numeral.value?_toDigits hlow hhigh]
    rfl
  obtain ⟨c, cs, htext, hc⟩ := hcons
  rw [← List.append_assoc, htext, List.cons_append] at hnumber
  rw [htext, List.cons_append, value_of_numeral hc, hnumber]

end Reads

section Containers

variable {lead tail : List Char}

/-- The texts that follow the first one in a container, and what stands before its closing bracket. -/
def furtherTexts (lead tail : List Char) : List (List Char) → List Char
  | [] => tail
  | text :: texts => ',' :: (lead ++ (text ++ furtherTexts lead tail texts))

/-- Texts with commas between them, one after the first. -/
lemma intercalate_texts (text : List Char) (texts : List (List Char)) :
    [','].intercalate ((text :: texts).map (lead ++ ·)) ++ tail = lead ++ (text ++ furtherTexts lead tail texts) := by
  induction texts generalizing text with
  | nil => simp [furtherTexts]
  | cons text' texts ih =>
    have hrest := ih text'
    rw [List.map_cons] at hrest
    rw [List.map_cons, List.map_cons, List.intercalate_cons_cons, List.append_assoc, hrest]
    simp [furtherTexts]

/-- Further texts begin with a comma or are blanks, so that a value before them ends. -/
lemma delimited_furtherTexts (htail : Blank tail) (texts : List (List Char)) {rest : List Char} (hrest : Delimited rest) :
    Delimited (furtherTexts lead tail texts ++ rest) := by
  cases texts with
  | nil => exact htail.delimited_append hrest
  | cons text texts => exact delimited_cons (.inr (.inl rfl)) _

/-- The text of a value does not begin with a blank. -/
lemma Reads.skipBlank_append (h : Reads v text) (hlead : Blank lead) (rest : List Char) :
    skipBlank (lead ++ (text ++ rest)) = text ++ rest := by
  obtain ⟨c, cs, rfl, hblank, -⟩ := h.exists_cons
  rw [Json.skipBlank_append hlead, List.cons_append, skipBlank_cons hblank]

/-- The elements of a list are read one after another, each with its comma or the closing bracket. -/
lemma elements_texts (hlead : Blank lead) (htail : Blank tail) {vs : List (Json R)} {texts : List (List Char)}
    (hvs : List.Forall₂ Reads vs texts) (hv : Reads v text) (fuel : ℕ) (rest : List Char)
    (hfuel : text.length + (furtherTexts lead tail texts).length < fuel) :
    elements fuel (text ++ (furtherTexts lead tail texts ++ ']' :: rest)) = .ok (v :: vs, rest) := by
  have hfirst (texts : List (List Char)) : Delimited (furtherTexts lead tail texts ++ ']' :: rest) :=
    delimited_furtherTexts htail texts (delimited_cons (.inr (.inr (.inl rfl))) rest)
  induction hvs generalizing v text fuel with
  | nil =>
    obtain ⟨fuel, rfl⟩ : ∃ n, fuel = n + 1 := ⟨fuel - 1, by omega⟩
    rw [elements, hv fuel _ (by omega) (hfirst [])]
    simp only [bind, Except.bind, furtherTexts, Json.skipBlank_append htail, skipBlank_cons (c := ']') rfl]
    rfl
  | @cons v' text' vs texts hv' _ ih =>
    rw [furtherTexts, List.length_cons, List.length_append, List.length_append] at hfuel
    obtain ⟨fuel, rfl⟩ : ∃ n, fuel = n + 1 := ⟨fuel - 1, by omega⟩
    have hrest := ih hv' fuel (by omega)
    rw [elements, hv fuel _ (by omega) (hfirst _)]
    simp only [bind, Except.bind, furtherTexts, List.cons_append, List.append_assoc, skipBlank_cons (c := ',') rfl,
      hv'.skipBlank_append hlead, hrest]
    rfl

/-- An empty array is read. -/
lemma Reads.emptyArray : Reads (array ([] : List (Json R))) ['[', ']'] :=
  of_succ (List.cons_ne_nil _ _) fun _ _ _ _ => rfl

/-- A list is read from its elements, whatever blanks surround them. -/
lemma Reads.array (hlead : Blank lead) (htail : Blank tail) {vs : List (Json R)} {texts : List (List Char)}
    (hvs : List.Forall₂ Reads vs texts) (hne : vs ≠ []) :
    Reads (array vs) ('[' :: ([','].intercalate (texts.map (lead ++ ·)) ++ tail ++ [']'])) := by
  cases hvs with
  | nil => exact absurd rfl hne
  | @cons v text vs texts hv hvs =>
    refine of_succ (List.cons_ne_nil _ _) fun fuel rest hfuel _ => ?_
    rw [intercalate_texts] at hfuel ⊢
    simp only [List.length_cons, List.length_append] at hfuel
    have hread := elements_texts hlead htail hvs hv fuel rest (by omega)
    rw [List.cons_append, List.append_assoc, List.append_assoc, List.append_assoc, List.singleton_append, value.eq_def]
    simp only [hv.skipBlank_append hlead]
    obtain ⟨c, cs, rfl, -, hbracket, -⟩ := hv.exists_cons
    split
    case h_1 heq => exact absurd (List.cons.inj heq).1 hbracket
    case h_2 =>
      rw [hread]
      rfl

/-- Whether a text is a name in quotes, a colon, and a text that is read as a value. -/
def ReadsMember (m : String × Json R) (text : List Char) : Prop :=
  ∃ gap valueText, Blank gap ∧ Reads m.2 valueText ∧ text = (quote m.1).toList ++ ':' :: (gap ++ valueText)

/-- A quoted name is read up to the value after its colon. -/
lemma key_quote {gap : List Char} (hgap : Blank gap) (h : Reads v text) (name : String) (rest : List Char) :
    key ((quote name).toList ++ ':' :: (gap ++ (text ++ rest))) = .ok (name, text ++ rest) := by
  have hcolon : afterColon (':' :: (gap ++ (text ++ rest))) = .ok (text ++ rest) := by
    simp only [afterColon, skipBlank_cons (c := ':') rfl, h.skipBlank_append hgap]
  simp only [toList_quote, List.cons_append, List.append_assoc, List.nil_append, key,
    Quoted.read?_flatMap_escapeChar, orMalformed, bind, Except.bind, hcolon]
  rfl

/-- A member begins with a quotation mark. -/
lemma ReadsMember.exists_cons {m : String × Json R} (h : ReadsMember m text) : ∃ cs, text = '"' :: cs := by
  obtain ⟨gap, valueText, -, -, rfl⟩ := h
  exact ⟨_, by rw [toList_quote, List.cons_append]⟩

/-- The text of a member does not begin with a blank. -/
lemma ReadsMember.skipBlank_append {m : String × Json R} (h : ReadsMember m text) (hlead : Blank lead)
    (rest : List Char) : skipBlank (lead ++ (text ++ rest)) = text ++ rest := by
  obtain ⟨cs, rfl⟩ := h.exists_cons
  rw [Json.skipBlank_append hlead, List.cons_append, skipBlank_cons rfl]

/-- A member is read up to its colon, and then its value. -/
lemma ReadsMember.key_value {m : String × Json R} (h : ReadsMember m text) {fuel : ℕ} {rest : List Char}
    (hfuel : text.length ≤ fuel) (hrest : Delimited rest) :
    ∃ cs, key (text ++ rest) = .ok (m.1, cs) ∧ value fuel cs = .ok (m.2, rest) := by
  obtain ⟨gap, valueText, hgap, hv, rfl⟩ := h
  rw [List.length_append, List.length_cons, List.length_append] at hfuel
  refine ⟨valueText ++ rest, ?_, hv fuel rest (by omega) hrest⟩
  rw [List.append_assoc, List.cons_append, List.append_assoc]
  exact key_quote hgap hv m.1 rest

/-- The members of an object are read one after another, each with its comma or the closing brace. -/
lemma members_texts (hlead : Blank lead) (htail : Blank tail) {m : String × Json R} {ms : List (String × Json R)}
    {texts : List (List Char)} (hms : List.Forall₂ ReadsMember ms texts) (hm : ReadsMember m text) (fuel : ℕ)
    (rest : List Char) (hfuel : text.length + (furtherTexts lead tail texts).length < fuel) :
    members fuel (text ++ (furtherTexts lead tail texts ++ '}' :: rest)) = .ok (m :: ms, rest) := by
  have hfirst (texts : List (List Char)) : Delimited (furtherTexts lead tail texts ++ '}' :: rest) :=
    delimited_furtherTexts htail texts (delimited_cons (.inr (.inr (.inr rfl))) rest)
  induction hms generalizing m text fuel with
  | nil =>
    obtain ⟨fuel, rfl⟩ : ∃ n, fuel = n + 1 := ⟨fuel - 1, by omega⟩
    obtain ⟨cs, hkey, hvalue⟩ := hm.key_value (show text.length ≤ fuel by omega) (hfirst [])
    rw [members, hkey]
    simp only [bind, Except.bind, hvalue, furtherTexts, Json.skipBlank_append htail, skipBlank_cons (c := '}') rfl]
    rfl
  | @cons m' text' ms texts hm' _ ih =>
    rw [furtherTexts, List.length_cons, List.length_append, List.length_append] at hfuel
    obtain ⟨fuel, rfl⟩ : ∃ n, fuel = n + 1 := ⟨fuel - 1, by omega⟩
    have hrest := ih hm' fuel (by omega)
    obtain ⟨cs, hkey, hvalue⟩ := hm.key_value (show text.length ≤ fuel by omega) (hfirst (text' :: texts))
    rw [members, hkey]
    simp only [bind, Except.bind, hvalue, furtherTexts, List.cons_append, List.append_assoc,
      skipBlank_cons (c := ',') rfl, hm'.skipBlank_append hlead, hrest]
    rfl

/-- An empty object is read. -/
lemma Reads.emptyObject : Reads (object ([] : List (String × Json R))) ['{', '}'] :=
  of_succ (List.cons_ne_nil _ _) fun _ _ _ _ => rfl

/-- An object is read from its members, whatever blanks surround them. -/
lemma Reads.object (hlead : Blank lead) (htail : Blank tail) {ms : List (String × Json R)} {texts : List (List Char)}
    (hms : List.Forall₂ ReadsMember ms texts) (hne : ms ≠ []) :
    Reads (object ms) ('{' :: ([','].intercalate (texts.map (lead ++ ·)) ++ tail ++ ['}'])) := by
  cases hms with
  | nil => exact absurd rfl hne
  | @cons m text ms texts hm hms =>
    refine of_succ (List.cons_ne_nil _ _) fun fuel rest hfuel _ => ?_
    rw [intercalate_texts] at hfuel ⊢
    simp only [List.length_cons, List.length_append] at hfuel
    have hread := members_texts hlead htail hms hm fuel rest (by omega)
    rw [List.cons_append, List.append_assoc, List.append_assoc, List.append_assoc, List.singleton_append, value.eq_def]
    simp only [hm.skipBlank_append hlead]
    obtain ⟨cs, rfl⟩ := hm.exists_cons
    split
    case h_1 heq => exact absurd (List.cons.inj heq).1 (by decide)
    case h_2 =>
      rw [hread]
      rfl

end Containers

end CircuitSynthesis.Json
