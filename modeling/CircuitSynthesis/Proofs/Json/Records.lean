import Mathlib
import CircuitSynthesis.Json.Parser
import CircuitSynthesis.Proofs.Loops

/-!
# Reading records

A record is read with a state that each member or element changes. `record_map`: where every step commutes with a map
between two kinds of states, so does the reading of a whole record, its faults included. `record_of_parse`: where every step
takes its member as the value that it holds, a record is read as if the text were parsed first and its members taken then.
-/

namespace CircuitSynthesis.Json.Reader

variable {σ τ : Type} {f : σ → τ} {member : σ → String → List Char → Except Fault (σ × List Char)}
  {member' : τ → String → List Char → Except Fault (τ × List Char)}
  {element : σ → List Char → Except Fault (σ × List Char)} {element' : τ → List Char → Except Fault (τ × List Char)}

/-- The states of a step, or of many, mapped. -/
def mapState (f : σ → τ) (r : Except Fault (σ × List Char)) : Except Fault (τ × List Char) := r.map (Prod.map f id)

/-- Members that are read one by one give what they give under a map of states, if each of them does. -/
lemma foldMembers_map (h : ∀ s name cs, member' (f s) name cs = mapState f (member s name cs)) (fuel : ℕ) (s : σ)
    (cs : List Char) : foldMembers member' fuel (f s) cs = mapState f (foldMembers member fuel s cs) := by
  induction fuel generalizing s cs with
  | zero => rfl
  | succ fuel ih =>
    rw [foldMembers, foldMembers]
    cases key cs with
    | error fault => rfl
    | ok keyed =>
      obtain ⟨name, rest⟩ := keyed
      simp only [bind, Except.bind, h]
      cases member s name rest with
      | error fault => rfl
      | ok taken =>
        obtain ⟨s', rest⟩ := taken
        simp only [mapState, Except.map, Prod.map_apply, id_eq]
        split
        · rfl
        · exact ih s' _
        · rfl

/-- Readers of elements that agree up to a map of states agree on an array. -/
lemma foldElements_map (h : ∀ s cs, element' (f s) cs = mapState f (element s cs)) (fuel : ℕ) (s : σ) (cs : List Char) :
    foldElements element' fuel (f s) cs = mapState f (foldElements element fuel s cs) := by
  induction fuel generalizing s cs with
  | zero => rfl
  | succ fuel ih =>
    rw [foldElements, foldElements, h]
    cases element s cs with
    | error fault => rfl
    | ok taken =>
      obtain ⟨s', rest⟩ := taken
      simp only [mapState, Except.map, bind, Except.bind, Prod.map_apply, id_eq]
      split
      · rfl
      · exact ih s' _
      · rfl

/-- A map of states with which every step commutes commutes with the reading of a record. -/
theorem record_map (hmember : ∀ s name cs, member' (f s) name cs = mapState f (member s name cs))
    (helement : ∀ s cs, element' (f s) cs = mapState f (element s cs)) (s : σ) (cs : List Char) :
    record member' element' (f s) cs = (record member element s cs).map f := by
  have hend (r : Except Fault (σ × List Char)) :
      (do let taken ← mapState f r; if (skipBlank taken.2).isEmpty then return taken.1 else throw .malformed) =
        (do let taken ← r; if (skipBlank taken.2).isEmpty then return taken.1 else throw .malformed :
          Except Fault σ).map f := by
    cases r with
    | error fault => rfl
    | ok taken =>
      obtain ⟨s', rest⟩ := taken
      simp only [mapState, Except.map, bind, Except.bind, Prod.map_apply, id_eq]
      split <;> rfl
  rw [record, record]
  split
  · split
    · exact hend (.ok (s, _))
    · rw [foldMembers_map hmember]
      exact hend _
  · split
    · exact hend (.ok (s, _))
    · rw [foldElements_map helement]
      exact hend _
  · rfl

section Parsed

variable {R : Type} [Scalar R] [DecimalText R] {v : Json R} {ms : List (String × Json R)} {cs rest : List Char}
  {fuel fuel' : ℕ} {take? : σ → String × Json R → Option σ}

/-- Whether a value is a number. -/
def IsNumber {R : Type} : Json R → Prop
  | .int _ => True
  | .float _ => True
  | _ => False

/-- A numeral has a number as its value. -/
lemma isNumber_value? {numeral : Numeral} (h : numeral.value? = some v) : IsNumber v := by
  rw [Numeral.value?] at h
  split at h
  extract_lets sign at h
  split at h
  case h_1 =>
    split at h
    case isTrue => exact Option.some.inj h ▸ trivial
    case isFalse =>
      split at h
      case isTrue => exact Option.some.inj h ▸ trivial
      case isFalse => exact Option.some.inj h ▸ trivial
  case h_2 =>
    obtain ⟨x, -, rfl⟩ := Option.map_eq_some_iff.1 h
    trivial

/-- Only what is there is not malformed. -/
lemma orMalformed_eq_ok_iff {α : Type} {o : Option α} {a : α} : orMalformed o = .ok a ↔ o = some a := by
  cases o <;> simp [orMalformed]

/-- What is read as a number is one. -/
lemma isNumber_of_number (h : number cs = .ok (v, rest)) : IsNumber v := by
  obtain ⟨⟨numeral, rest'⟩, -, h⟩ := bind_eq_ok_iff.1 h
  obtain ⟨v', hv, h⟩ := bind_eq_ok_iff.1 h
  cases h
  exact isNumber_value? (orMalformed_eq_ok_iff.1 hv)

/-- A number was read as one, and so it is in a field of numbers. -/
lemma numberField_of_value (h : value fuel cs = .ok (v, rest)) (hv : IsNumber v) (kind : FieldKind) :
    numberField kind cs = .ok (v, rest) := by
  cases fuel with
  | zero => cases h
  | succ fuel =>
    rw [value.eq_def] at h
    dsimp only at h
    split at h
    case h_1 | h_2 | h_3 =>
      cases h
      exact hv.elim
    case h_4 =>
      obtain ⟨_, -, h⟩ := bind_eq_ok_iff.1 h
      cases h
      exact hv.elim
    case h_5 | h_6 =>
      split at h
      · cases h
        exact hv.elim
      · obtain ⟨_, -, h⟩ := bind_eq_ok_iff.1 h
        cases h
        exact hv.elim
    case h_7 hquote _ _ =>
      rw [numberField]
      · exact h
      · exact hquote

/-- An object was read from its members, unless it has none. -/
lemma members_of_value (h : value (R := R) fuel cs = .ok (.object ms, rest)) : ∃ fuel' inner, fuel = fuel' + 1 ∧
    cs = '\x7b' :: inner ∧ ((skipBlank inner = '\x7d' :: rest ∧ ms = []) ∨
      ((∀ others, skipBlank inner ≠ '\x7d' :: others) ∧ members fuel' (skipBlank inner) = .ok (ms, rest))) := by
  cases fuel with
  | zero => cases h
  | succ fuel =>
    rw [value.eq_def] at h
    dsimp only at h
    split at h
    case h_1 | h_2 | h_3 => cases h
    case h_4 =>
      obtain ⟨_, -, h⟩ := bind_eq_ok_iff.1 h
      cases h
    case h_5 =>
      split at h
      · cases h
      · obtain ⟨_, -, h⟩ := bind_eq_ok_iff.1 h
        cases h
    case h_6 inner =>
      refine ⟨fuel, inner, rfl, rfl, ?_⟩
      split at h
      case h_1 others hempty =>
        cases h
        exact .inl ⟨hempty, rfl⟩
      case h_2 hfurther =>
        obtain ⟨_, hmembers, h⟩ := bind_eq_ok_iff.1 h
        cases h
        exact .inr ⟨hfurther, hmembers⟩
    case h_7 => exact (isNumber_of_number h).elim

/-- A reader that takes each member as the value it holds takes the members of an object one after another. -/
lemma foldMembers_of_members {ms : List (String × Json R)}
    (hmember : ∀ m ∈ ms, ∀ s fuel cs rest, value fuel cs = .ok (m.2, rest) →
      member s m.1 cs = (orMalformed (take? s m)).map (·, rest))
    (h : members fuel cs = .ok (ms, rest)) (hfuel : fuel ≤ fuel') (s : σ) :
    foldMembers member fuel' s cs = (orMalformed (ms.foldlM take? s)).map (·, rest) := by
  induction fuel generalizing ms cs s fuel' with
  | zero => cases h
  | succ fuel ih =>
    -- both take a key and a value from the same characters, so they stop at the same comma or brace
    obtain ⟨fuel', rfl⟩ : ∃ n, fuel' = n + 1 := ⟨fuel' - 1, by omega⟩
    rw [members] at h
    obtain ⟨⟨name, inner⟩, hkey, h⟩ := bind_eq_ok_iff.1 h
    obtain ⟨⟨first, further⟩, hvalue, h⟩ := bind_eq_ok_iff.1 h
    rw [foldMembers, hkey]
    dsimp only at h
    split at h
    case h_1 rest hclose =>
      cases h
      have hstep := hmember (name, first) List.mem_cons_self s fuel inner further hvalue
      simp only [bind, Except.bind, hstep, List.foldlM_cons, List.foldlM_nil]
      cases take? s (name, first) with
      | none => rfl
      | some s' =>
        simp only [orMalformed, Except.map, hclose]
        rfl
    case h_2 rest hcomma =>
      obtain ⟨⟨others, rest⟩, hothers, h⟩ := bind_eq_ok_iff.1 h
      cases h
      have hstep := hmember (name, first) List.mem_cons_self s fuel inner further hvalue
      have hrest := ih (fun m hm => hmember m (List.mem_cons_of_mem _ hm)) hothers (Nat.le_of_succ_le_succ hfuel)
      simp only [bind, Except.bind, hstep, List.foldlM_cons]
      cases take? s (name, first) with
      | none => rfl
      | some s' =>
        simp only [orMalformed, Except.map, hcomma]
        exact hrest s'
    case h_3 => cases h

/-- A text that is parsed has its value in front and nothing after it. -/
lemma value_of_parse {text : String} (h : parse text = .ok v) :
    ∃ rest, value (text.toList.length + 1) (skipBlank text.toList) = .ok (v, rest) ∧ (skipBlank rest).isEmpty = true := by
  rw [parse] at h
  obtain ⟨⟨v', rest⟩, hvalue, h⟩ := bind_eq_ok_iff.1 h
  dsimp only at h
  split at h
  case isTrue hend =>
    cases h
    exact ⟨rest, hvalue, hend⟩
  case isFalse => cases h

/-- A record that is read member by member ends in the state to which the members of the parsed object lead. -/
theorem record_of_parse {text : String} {ms : List (String × Json R)}
    (hmember : ∀ m ∈ ms, ∀ s fuel cs rest, value fuel cs = .ok (m.2, rest) →
      member s m.1 cs = (orMalformed (take? s m)).map (·, rest))
    (h : parse text = .ok (.object ms)) (s : σ) :
    record member element s text.toList = orMalformed (ms.foldlM take? s) := by
  obtain ⟨rest, hvalue, hend⟩ := value_of_parse h
  obtain ⟨fuel, inner, hfuel, hopen, hinner⟩ := members_of_value hvalue
  rw [record]
  simp only [hopen]
  rcases hinner with ⟨hclose, rfl⟩ | ⟨hfurther, hmembers⟩
  · simp only [hclose]
    exact if_pos hend
  · split
    case h_1 others hclose => exact absurd hclose (hfurther others)
    case h_2 =>
      rw [foldMembers_of_members hmember hmembers (by omega)]
      cases ms.foldlM take? s with
      | none => rfl
      | some s' => exact if_pos hend

end Parsed

end CircuitSynthesis.Json.Reader
