import Mathlib
import CircuitSynthesis.Json.Value
import CircuitSynthesis.Proofs.Loops

/-!
# Codecs

A record is an object whose members are found by their keys, or an array whose elements stand for the fields in turn.
`fields?_object` finds the fields that were written, and by `Numbers.of_fields?` what is found has no numbers but those of
the record. `Codec` relates writing and reading: what is written is read back, and what is read could have been written.
-/

namespace CircuitSynthesis

namespace Json

variable {R α : Type} {P : R → Prop} {v : Json R} {members : List (String × Json R)} {key : String}

/-- Whether the integers of a value have at most 64 bits, and its other numbers satisfy `P`. -/
inductive Numbers (P : R → Prop) : Json R → Prop
  | null : Numbers P null
  | bool (b : Bool) : Numbers P (bool b)
  | int {i : ℤ} : -2 ^ 63 ≤ i → i < 2 ^ 64 → Numbers P (int i)
  | float {x : R} : P x → Numbers P (float x)
  | string (s : String) : Numbers P (string s)
  | array {elements : List (Json R)} : (∀ v ∈ elements, Numbers P v) → Numbers P (array elements)
  | object {members : List (String × Json R)} : (∀ m ∈ members, Numbers P m.2) → Numbers P (object members)

/-- Whether all numbers of a value are of finite size, as in every value that stands in a text. -/
def HasFiniteNumbers [Scalar R] (v : Json R) : Prop := v.Numbers fun x => Scalar.isFinite x = true

section Numbers

@[simp] lemma numbers_null : (null : Json R).Numbers P := .null

@[simp] lemma numbers_bool (b : Bool) : (bool b : Json R).Numbers P := .bool b

@[simp] lemma numbers_string (s : String) : (string s : Json R).Numbers P := .string s

@[simp] lemma numbers_int {i : ℤ} : (int i : Json R).Numbers P ↔ -2 ^ 63 ≤ i ∧ i < 2 ^ 64 := by
  refine ⟨fun h => ?_, fun h => .int h.1 h.2⟩
  cases h with
  | int hlow hhigh => exact ⟨hlow, hhigh⟩

@[simp] lemma numbers_float {x : R} : (float x).Numbers P ↔ P x := by
  refine ⟨fun h => ?_, .float⟩
  cases h with
  | float hx => exact hx

@[simp] lemma numbers_array {elements : List (Json R)} :
    (array elements).Numbers P ↔ ∀ v ∈ elements, v.Numbers P := by
  refine ⟨fun h => ?_, .array⟩
  cases h with
  | array h => exact h

@[simp] lemma numbers_object : (object members).Numbers P ↔ ∀ m ∈ members, m.2.Numbers P := by
  refine ⟨fun h => ?_, .object⟩
  cases h with
  | object h => exact h

/-- The elements of an array have the numbers of the array. -/
lemma Numbers.of_mem_array {elements : List (Json R)} (h : (Json.array elements).Numbers P) (hv : v ∈ elements) :
    v.Numbers P :=
  numbers_array.1 h v hv

/-- The members of an object have the numbers of the object. -/
lemma Numbers.of_mem_object (h : (Json.object members).Numbers P) (hv : (key, v) ∈ members) : v.Numbers P :=
  numbers_object.1 h (key, v) hv

end Numbers

section Fields

/-- The values of a key are values of members. -/
lemma mem_of_mem_valuesOf (h : v ∈ valuesOf members key) : (key, v) ∈ members := by
  rw [valuesOf, List.mem_map] at h
  obtain ⟨m, hm, rfl⟩ := h
  obtain ⟨hm, hkey⟩ := List.mem_filter.1 hm
  rwa [← eq_of_beq hkey]

/-- The only value of a key is the value of a member. -/
lemma mem_of_exactlyOne? (h : exactlyOne? members key = some v) : (key, v) ∈ members := by
  rw [exactlyOne?] at h
  split at h
  case h_1 w hvalues =>
    obtain rfl := Option.some.inj h
    exact mem_of_mem_valuesOf (by rw [hvalues]; exact List.mem_singleton_self w)
  case h_2 => cases h

/-- The value of a key, where there is one, is the value of a member. -/
lemma mem_of_atMostOne? (h : atMostOne? members key = some (some v)) : (key, v) ∈ members := by
  rw [atMostOne?] at h
  split at h
  case h_1 => cases h
  case h_2 w hvalues =>
    obtain rfl := Option.some.inj (Option.some.inj h)
    exact mem_of_mem_valuesOf (by rw [hvalues]; exact List.mem_singleton_self w)
  case h_3 => cases h

/-- Where no key occurs twice a member is the only one of its key. -/
lemma valuesOf_of_mem (hkeys : (members.map Prod.fst).Nodup) (h : (key, v) ∈ members) : valuesOf members key = [v] := by
  induction members with
  | nil => cases h
  | cons m members ih =>
    rw [List.map_cons, List.nodup_cons] at hkeys
    rw [valuesOf, List.filter_cons]
    rcases List.mem_cons.1 h with rfl | hrest
    · have hnone : members.filter (fun m => m.1 == key) = [] := by
        refine List.filter_eq_nil_iff.2 fun m hm hkey => hkeys.1 ?_
        have hm' : m.1 ∈ members.map Prod.fst := List.mem_map_of_mem hm
        rwa [eq_of_beq hkey] at hm'
      rw [if_pos (beq_self_eq_true key), List.map_cons, hnone]
      rfl
    · have hne : m.1 ≠ key := fun heq => hkeys.1 (heq ▸ List.mem_map_of_mem hrest)
      rw [if_neg (by simpa using hne)]
      exact ih hkeys.2 hrest

/-- The members of an object are found by their keys, if no key is repeated. -/
lemma fields?_object (fields : List (String × Json R)) (hkeys : (members.map Prod.fst).Nodup) (h : fields ⊆ members) :
    (object members).fields? (fields.map Prod.fst) = some (fields.map Prod.snd) := by
  rw [fields?, mapM_eq_some_iff_map_eq, List.map_map, List.map_map]
  refine List.map_congr_left fun m hm => ?_
  rw [Function.comp_apply, exactlyOne?, valuesOf_of_mem hkeys (h hm)]
  rfl

/-- What is found in a record has no numbers but those of the record. -/
lemma Numbers.of_fields? {keys : List String} {values : List (Json R)} (hv : v.Numbers P)
    (h : v.fields? keys = some values) : ∀ w ∈ values, w.Numbers P := by
  cases v with
  | object members =>
    rw [fields?, mapM_eq_some_iff_map_eq] at h
    intro w hw
    obtain ⟨key, -, hfound⟩ := List.mem_map.1 (h ▸ List.mem_map_of_mem hw : some w ∈ keys.map (exactlyOne? members))
    exact hv.of_mem_object (mem_of_exactlyOne? hfound)
  | array elements =>
    rw [fields?] at h
    split at h
    case isTrue =>
      cases h
      exact fun w => hv.of_mem_array
    case isFalse => cases h
  | _ => cases h

end Fields

section Codecs

variable [Scalar R] {Storable : α → Prop} {write : α → Json R} {read : Json R → Option α}

/-- A way to write the values of a type that can be stored, and to read them. -/
structure Codec (Storable : α → Prop) (write : α → Json R) (read : Json R → Option α) : Prop where
  read_write (a : α) : Storable a → read (write a) = some a
  finite_write (a : α) : Storable a → (write a).HasFiniteNumbers
  storable_of_read (v : Json R) (a : α) : v.HasFiniteNumbers → read v = some a → Storable a

namespace Codec

/-- The values that are read are those that can be stored. -/
lemma exists_read_iff (h : Codec Storable write read) {a : α} :
    (∃ v : Json R, v.HasFiniteNumbers ∧ read v = some a) ↔ Storable a :=
  ⟨fun ⟨v, hv, hread⟩ => h.storable_of_read v a hv hread, fun ha => ⟨write a, h.finite_write a ha, h.read_write a ha⟩⟩

/-- A list is stored element by element. -/
lemma list (h : Codec Storable write read) :
    Codec (fun as : List α => ∀ a ∈ as, Storable a) (fun as => .array (as.map write)) (list? read) where
  read_write as has := by
    rw [list?, mapM_eq_some_iff_map_eq, List.map_map]
    exact List.map_congr_left fun a ha => h.read_write a (has a ha)
  finite_write as has := by
    refine .array fun v hv => ?_
    obtain ⟨a, ha, rfl⟩ := List.mem_map.1 hv
    exact h.finite_write a (has a ha)
  storable_of_read v as hv hread := by
    cases v with
    | array elements =>
      rw [list?, mapM_eq_some_iff_map_eq] at hread
      intro a ha
      obtain ⟨w, hw, hfound⟩ := List.mem_map.1 (hread ▸ List.mem_map_of_mem ha : some a ∈ elements.map read)
      exact h.storable_of_read w a (hv.of_mem_array hw) hfound
    | _ => cases hread

end Codec

/-- Natural numbers below a bound of 64 bits. -/
lemma codec_nat {bound : ℕ} (hbound : bound ≤ 2 ^ 64) : Codec (R := R) (· < bound) ofNat (nat? bound) where
  read_write n hn := by
    have hn' : 0 ≤ (n : ℤ) ∧ (n : ℤ) < bound := ⟨n.cast_nonneg, Nat.cast_lt.2 hn⟩
    rw [ofNat, nat?, if_pos hn', Int.toNat_natCast]
  finite_write n hn := .int (by omega) (by omega)
  storable_of_read v n _ hread := by
    cases v with
    | int i =>
      rw [nat?] at hread
      split at hread
      case isTrue hi =>
        cases hread
        omega
      case isFalse => cases hread
    | _ => cases hread

/-- Whether integers of at most 64 bits are read as numbers of finite size. -/
def ReadsIntegers (R : Type) [Scalar R] [DecimalText R] : Prop :=
  ∀ i : ℤ, -2 ^ 63 ≤ i → i < 2 ^ 64 → Scalar.isFinite (DecimalText.ofInt i : R) = true

variable [DecimalText R]

/-- Numbers of finite size. -/
lemma codec_scalar (hintegers : ReadsIntegers R) : Codec (fun x : R => Scalar.isFinite x = true) ofScalar scalar? where
  read_write x hx := by
    rw [ofScalar, if_pos hx]
    rfl
  finite_write x hx := by
    rw [ofScalar, if_pos hx]
    exact .float hx
  storable_of_read v x hv hread := by
    cases hv with
    | int hlow hhigh =>
      cases hread
      exact hintegers _ hlow hhigh
    | float hx =>
      cases hread
      exact hx
    | _ => cases hread

end Codecs

end Json

end CircuitSynthesis
