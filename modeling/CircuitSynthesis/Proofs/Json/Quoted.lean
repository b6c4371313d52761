import Mathlib
import CircuitSynthesis.Json.Printer
import CircuitSynthesis.Json.Text

/-!
# Reading quoted texts

A text is read back from the form in quotes. The reader takes the escape of one character in one step, so it gets through
the whole form by induction on the characters.
-/

namespace CircuitSynthesis.Json

namespace Quoted

/-- A hexadecimal digit is read as its value. -/
lemma hexDigit?_hexChar {n : ℕ} (hn : n < 16) : hexDigit? (hexChar n) = some n := by
  interval_cases n <;> decide

/-- A control character is read back from its escaped code. -/
lemma escapedCode?_control {n : ℕ} (hn : n < 32) (rest : List Char) :
    escapedCode? ('0' :: '0' :: hexChar (n / 16) :: hexChar (n % 16) :: rest) = some (Char.ofNat n, rest) := by
  have hzero : hexDigit? '0' = some 0 := by decide
  have hunit : codeUnit? ('0' :: '0' :: hexChar (n / 16) :: hexChar (n % 16) :: rest) = some (n, rest) := by
    have hsum : n / 16 * 16 + n % 16 = n := Nat.div_add_mod' n 16
    simp [codeUnit?, hzero, hexDigit?_hexChar (show n / 16 < 16 by omega), hexDigit?_hexChar (n.mod_lt (by decide)), hsum]
  have hhigh : ¬ (0xD800 ≤ n ∧ n < 0xDC00) := by omega
  have hlow : ¬ (0xDC00 ≤ n ∧ n < 0xE000) := by omega
  simp only [escapedCode?, hunit, Option.bind_eq_bind, Option.bind_some, if_neg hhigh, if_neg hlow, Option.pure_def]

/-- Every character is written with at least one. -/
lemma escapeChar_ne_nil (c : Char) : escapeChar c ≠ [] := by
  rw [escapeChar.eq_def]
  split
  case h_6 => split_ifs <;> simp
  all_goals simp

/-- The escape of a character is read in one step. -/
lemma readRest?_escapeChar (fuel : ℕ) (done : List Char) (c : Char) (rest : List Char) :
    readRest? (fuel + 1) done (escapeChar c ++ rest) = readRest? fuel (c :: done) rest := by
  rw [escapeChar.eq_def]
  split
  case h_6 hquote hbackslash _ _ _ =>
    have hcode {n : ℕ} (hn : c.toNat = n) : Char.ofNat n = c := by rw [← hn, Char.ofNat_toNat]
    split_ifs with hbackspace hformfeed hcontrol
    · rw [← hcode hbackspace]; rfl
    · rw [← hcode hformfeed]; rfl
    · simp [readRest?, escapedCode?_control hcontrol, Char.ofNat_toNat]
    · rw [List.singleton_append, readRest?, if_neg hcontrol]
      · exact hquote
      · exact fun _ heq _ => hbackslash heq
      · exact fun _ _ heq _ => hbackslash heq
  all_goals rfl

/-- A quoted text is read back character by character, by induction over the characters. -/
lemma readRest?_flatMap_escapeChar (fuel : ℕ) (done cs rest : List Char) :
    readRest? (fuel + 1 + cs.length) done (cs.flatMap escapeChar ++ '"' :: rest) =
      some (String.ofList (done.reverse ++ cs), rest) := by
  induction cs generalizing done with
  | nil => simp [readRest?]
  | cons c cs ih =>
    rw [List.flatMap_cons, List.append_assoc, List.length_cons, ← Nat.add_assoc, readRest?_escapeChar, ih]
    simp

/-- A quoted text is no shorter than what it quotes. -/
lemma length_le_flatMap_escapeChar (cs : List Char) : cs.length ≤ (cs.flatMap escapeChar).length := by
  induction cs with
  | nil => rfl
  | cons c cs ih =>
    have hc := List.length_pos_of_ne_nil (escapeChar_ne_nil c)
    rw [List.flatMap_cons, List.length_append, List.length_cons]
    omega

/-- A text is read from the characters behind its opening quote. -/
lemma read?_flatMap_escapeChar (s : String) (rest : List Char) :
    read? (s.toList.flatMap escapeChar ++ '"' :: rest) = some (s, rest) := by
  have hlength := length_le_flatMap_escapeChar s.toList
  obtain ⟨fuel, hfuel⟩ : ∃ fuel, (s.toList.flatMap escapeChar ++ '"' :: rest).length + 1 = fuel + 1 + s.toList.length :=
    ⟨(s.toList.flatMap escapeChar ++ '"' :: rest).length - s.toList.length, by rw [List.length_append]; omega⟩
  rw [read?, hfuel, readRest?_flatMap_escapeChar, List.reverse_nil, List.nil_append, String.ofList_toList]

end Quoted

/-- A quoted text stands between quotation marks, with its characters escaped. -/
lemma toList_quote (s : String) : (quote s).toList = '"' :: (s.toList.flatMap escapeChar ++ ['"']) := by
  simp [quote]

end CircuitSynthesis.Json
