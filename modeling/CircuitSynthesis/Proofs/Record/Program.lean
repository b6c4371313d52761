import Mathlib
import CircuitSynthesis.Program.Record
import CircuitSynthesis.Proofs.Record.Codec

/-!
# Records of programs

A program can be stored if its wires and its width have 32 bits and its numbers are of finite size. Each kind of gate has
its own fields behind the key `kind`, and each record its own keys; by `Program.codec` reading undoes writing through all
of them.
-/

namespace CircuitSynthesis

open Json

variable {R : Type} [Scalar R] [DecimalText R]

/-- Wires have fewer bits than integers. -/
lemma wireBound_le : wireBound ≤ 2 ^ 64 := by decide

/-- Amplitudes both of whose parts are finite. -/
lemma Amplitude.codec (hintegers : ReadsIntegers R) :
    Codec (R := R) (fun z => Amplitude.isFinite z = true) Amplitude.toJson Amplitude.ofJson? where
  read_write z hz := by
    rw [isFinite, Bool.and_eq_true] at hz
    have hre := (codec_scalar hintegers).read_write z.re hz.1
    have him := (codec_scalar hintegers).read_write z.im hz.2
    rw [toJson, ofJson?, hre, him]
    rfl
  finite_write z hz := by
    rw [isFinite, Bool.and_eq_true] at hz
    refine .array fun v hv => ?_
    obtain rfl | rfl : v = ofScalar z.re ∨ v = ofScalar z.im := by simpa using hv
    · exact (codec_scalar hintegers).finite_write z.re hz.1
    · exact (codec_scalar hintegers).finite_write z.im hz.2
  storable_of_read v z hv hread := by
    rw [ofJson?.eq_def] at hread
    split at hread
    case h_1 re im =>
      simp only [Option.bind_eq_bind, Option.bind_eq_some_iff, Option.pure_def, Option.some_inj] at hread
      obtain ⟨x, hx, y, hy, rfl⟩ := hread
      have hre := (codec_scalar hintegers).storable_of_read re x (hv.of_mem_array (by simp)) hx
      have him := (codec_scalar hintegers).storable_of_read im y (hv.of_mem_array (by simp)) hy
      rw [isFinite, hre, him]
      rfl
    case h_2 => cases hread

section Matrices

/-- Whether the entries of a matrix are finite. -/
def Matrix2.IsStorable (u : Matrix2 R) : Prop := ∀ z ∈ u.entries, z.isFinite = true

omit [Scalar R] in
/-- A one-wire matrix is read from exactly its field. -/
lemma Matrix2.ofJson?_eq_some_iff {v : Json R} {u : Matrix2 R} : ofJson? v = some u ↔
    ∃ data, v.fields? ["data"] = some [data] ∧ data.list? Amplitude.ofJson? = some u.entries := by
  have hentries (zs : List (Amplitude R)) : ofEntries? zs = some u ↔ zs = u.entries := by
    constructor
    · intro h
      rw [ofEntries?.eq_def] at h
      split at h <;> cases h
      rfl
    · rintro rfl
      rfl
  constructor
  · intro h
    simp only [ofJson?, Option.bind_eq_bind, Option.bind_eq_some_iff] at h
    obtain ⟨values, hfields, h⟩ := h
    split at h
    case h_1 data =>
      obtain ⟨zs, hzs, h⟩ := Option.bind_eq_some_iff.1 h
      exact ⟨data, hfields, (hentries zs).1 h ▸ hzs⟩
    case h_2 => cases h
  · rintro ⟨data, hfields, hdata⟩
    simp [ofJson?, hfields, hdata, hentries]

/-- Matrices of finite entries can be stored and read. -/
lemma Matrix2.codec (hintegers : ReadsIntegers R) : Codec (R := R) IsStorable Matrix2.toJson Matrix2.ofJson? where
  read_write u hu := by
    have hfields : u.toJson.fields? ["data"] = some [.array (u.entries.map Amplitude.toJson)] :=
      fields?_object [("data", _)] (by simp) (List.Subset.refl _)
    exact ofJson?_eq_some_iff.2 ⟨_, hfields, (Amplitude.codec hintegers).list.read_write u.entries hu⟩
  finite_write u hu := by
    refine .object fun m hm => ?_
    rw [List.mem_singleton.1 hm]
    exact (Amplitude.codec hintegers).list.finite_write u.entries hu
  storable_of_read v u hv hread := by
    obtain ⟨data, hfields, hdata⟩ := ofJson?_eq_some_iff.1 hread
    exact (Amplitude.codec hintegers).list.storable_of_read data u.entries (hv.of_fields? hfields data (by simp)) hdata

end Matrices

namespace ElementaryGate

/-- Whether the wires of a gate have 32 bits and its numbers are finite. -/
def IsStorable : ElementaryGate R → Prop
  | unitary wire matrix => wire < wireBound ∧ matrix.IsStorable
  | rotation wire _ angle => wire < wireBound ∧ Scalar.isFinite angle = true
  | entangler control target => control < wireBound ∧ target < wireBound

/-- Which kind and which fields are those of a gate. -/
inductive IsRecord : String → Json R → ElementaryGate R → Prop
  | unitary {fields wire matrix : Json R} {w : ℕ} {u : Matrix2 R} :
    fields.fields? ["wire", "matrix"] = some [wire, matrix] → wire.nat? wireBound = some w →
    Matrix2.ofJson? matrix = some u → IsRecord "unitary" fields (unitary w u)
  | rotation {fields wire axis angle : Json R} {w : ℕ} {a : Axis} {t : R} :
    fields.fields? ["wire", "axis", "angle"] = some [wire, axis, angle] → wire.nat? wireBound = some w →
    axis.markedWord?.bind Axis.ofName? = some a → angle.scalar? = some t → IsRecord "rotation" fields (rotation w a t)
  | entangler {fields control target : Json R} {c t : ℕ} :
    fields.fields? ["control", "target"] = some [control, target] → control.nat? wireBound = some c →
    target.nat? wireBound = some t → IsRecord "entangler" fields (entangler c t)

omit [Scalar R] in
/-- A gate is read from exactly the fields of its kind. -/
lemma ofFields?_eq_some_iff {kind : String} {fields : Json R} {g : ElementaryGate R} :
    ofFields? kind fields = some g ↔ IsRecord kind fields g := by
  constructor
  · intro h
    rw [ofFields?.eq_def] at h
    split at h
    case h_1 =>
      obtain ⟨values, hvalues, h⟩ := Option.bind_eq_some_iff.1 h
      split at h
      case h_1 =>
        simp only [Option.bind_eq_bind, Option.bind_eq_some_iff, Option.pure_def, Option.some_inj] at h
        obtain ⟨w, hw, u, hu, rfl⟩ := h
        exact .unitary hvalues hw hu
      case h_2 => cases h
    case h_2 =>
      obtain ⟨values, hvalues, h⟩ := Option.bind_eq_some_iff.1 h
      split at h
      case h_1 =>
        simp only [Option.bind_eq_bind, Option.bind_eq_some_iff, Option.pure_def, Option.some_inj] at h
        obtain ⟨w, hw, word, hword, a, ha, t, ht, rfl⟩ := h
        exact .rotation hvalues hw (Option.bind_eq_some_iff.2 ⟨word, hword, ha⟩) ht
      case h_2 => cases h
    case h_3 =>
      obtain ⟨values, hvalues, h⟩ := Option.bind_eq_some_iff.1 h
      split at h
      case h_1 =>
        simp only [Option.bind_eq_bind, Option.bind_eq_some_iff, Option.pure_def, Option.some_inj] at h
        obtain ⟨c, hc, t, ht, rfl⟩ := h
        exact .entangler hvalues hc ht
      case h_2 => cases h
    case h_4 => cases h
  · rintro (⟨hvalues, hw, hu⟩ | ⟨hvalues, hw, ha, ht⟩ | ⟨hvalues, hc, ht⟩)
    · simp [ofFields?, hvalues, hw, hu]
    · obtain ⟨word, hword, ha⟩ := Option.bind_eq_some_iff.1 ha
      simp [ofFields?, hvalues, hw, hword, ha, ht]
    · simp [ofFields?, hvalues, hc, ht]

omit [Scalar R] in
/-- The kind of a gate may stand in front of its fields. -/
lemma ofJson?_cons_kind {kind : String} {members : List (String × Json R)} (h : "kind" ∉ members.map Prod.fst) :
    ofJson? (.object (("kind", .string kind) :: members)) =
      ofFields? kind (.object (("kind", .string kind) :: members)) := by
  have hnone : members.filter (fun m => m.1 == "kind") = [] :=
    List.filter_eq_nil_iff.2 fun m hm heq => h (eq_of_beq heq ▸ List.mem_map_of_mem hm)
  simp [ofJson?, exactlyOne?, valuesOf, hnone, string?]

/-- A gate that can be stored is read back from its record. -/
lemma ofJson?_toJson (hintegers : ReadsIntegers R) {g : ElementaryGate R} (hg : g.IsStorable) :
    ofJson? g.toJson = some g := by
  have hnat {n : ℕ} (hn : n < wireBound) : (ofNat n : Json R).nat? wireBound = some n :=
    (codec_nat wireBound_le).read_write n hn
  cases g with
  | unitary wire matrix =>
    have hfields : (unitary wire matrix).toJson.fields? ["wire", "matrix"] = some [.ofNat wire, matrix.toJson] :=
      fields?_object [("wire", .ofNat wire), ("matrix", matrix.toJson)] (by simp) (by simp)
    have hmatrix := (Matrix2.codec hintegers).read_write matrix hg.2
    exact (ofJson?_cons_kind (by simp)).trans (ofFields?_eq_some_iff.2 (.unitary hfields (hnat hg.1) hmatrix))
  | rotation wire axis angle =>
    have hfields : (rotation wire axis angle).toJson.fields? ["wire", "axis", "angle"] =
        some [.ofNat wire, .string axis.name, .ofScalar angle] :=
      fields?_object [("wire", .ofNat wire), ("axis", .string axis.name), ("angle", .ofScalar angle)] (by simp) (by simp)
    have haxis : (Json.string axis.name : Json R).markedWord?.bind Axis.ofName? = some axis := by cases axis <;> rfl
    have hangle := (codec_scalar hintegers).read_write angle hg.2
    exact (ofJson?_cons_kind (by simp)).trans (ofFields?_eq_some_iff.2 (.rotation hfields (hnat hg.1) haxis hangle))
  | entangler control target =>
    have hfields : (entangler control target : ElementaryGate R).toJson.fields? ["control", "target"] =
        some [.ofNat control, .ofNat target] :=
      fields?_object [("control", .ofNat control), ("target", .ofNat target)] (by simp) (by simp)
    exact (ofJson?_cons_kind (by simp)).trans (ofFields?_eq_some_iff.2 (.entangler hfields (hnat hg.1) (hnat hg.2)))

/-- A gate read with finite numbers can be stored. -/
lemma IsRecord.isStorable (hintegers : ReadsIntegers R) {kind : String} {fields : Json R} {g : ElementaryGate R}
    (h : IsRecord kind fields g) (hfields : fields.HasFiniteNumbers) : g.IsStorable := by
  have hnat {v : Json R} {n : ℕ} (hv : v.HasFiniteNumbers) (hn : v.nat? wireBound = some n) : n < wireBound :=
    (codec_nat wireBound_le).storable_of_read v n hv hn
  cases h with
  | unitary hvalues hw hu =>
    have hnumbers := hfields.of_fields? hvalues
    exact ⟨hnat (hnumbers _ (by simp)) hw, (Matrix2.codec hintegers).storable_of_read _ _ (hnumbers _ (by simp)) hu⟩
  | rotation hvalues hw _ ht =>
    have hnumbers := hfields.of_fields? hvalues
    exact ⟨hnat (hnumbers _ (by simp)) hw, (codec_scalar hintegers).storable_of_read _ _ (hnumbers _ (by simp)) ht⟩
  | entangler hvalues hc ht =>
    have hnumbers := hfields.of_fields? hvalues
    exact ⟨hnat (hnumbers _ (by simp)) hc, hnat (hnumbers _ (by simp)) ht⟩

/-- The record of a gate that can be stored has finite numbers. -/
lemma finite_toJson (hintegers : ReadsIntegers R) {g : ElementaryGate R} (hg : g.IsStorable) :
    g.toJson.HasFiniteNumbers := by
  have hnat {n : ℕ} (hn : n < wireBound) : (ofNat n : Json R).HasFiniteNumbers :=
    (codec_nat wireBound_le).finite_write n hn
  cases g with
  | unitary wire matrix =>
    refine .object (List.forall_mem_cons.2 ⟨.string _, List.forall_mem_cons.2 ⟨hnat hg.1, List.forall_mem_singleton.2 ?_⟩⟩)
    exact (Matrix2.codec hintegers).finite_write matrix hg.2
  | rotation wire axis angle =>
    refine .object (List.forall_mem_cons.2 ⟨.string _, List.forall_mem_cons.2 ⟨hnat hg.1, ?_⟩⟩)
    exact List.forall_mem_cons.2 ⟨.string _, List.forall_mem_singleton.2 ((codec_scalar hintegers).finite_write angle hg.2)⟩
  | entangler control target =>
    refine .object (List.forall_mem_cons.2 ⟨.string _, List.forall_mem_cons.2 ⟨hnat hg.1, ?_⟩⟩)
    exact List.forall_mem_singleton.2 (hnat hg.2)

/-- Gates whose wires have 32 bits and whose numbers are finite. -/
lemma codec (hintegers : ReadsIntegers R) : Codec (R := R) IsStorable toJson ofJson? where
  read_write _ := ofJson?_toJson hintegers
  finite_write _ := finite_toJson hintegers
  storable_of_read v g hv hread := by
    rw [ofJson?.eq_def] at hread
    split at hread
    case h_1 members =>
      simp only [Option.bind_eq_bind, Option.bind_eq_some_iff] at hread
      obtain ⟨kind, -, word, -, hread⟩ := hread
      exact (ofFields?_eq_some_iff.1 hread).isStorable hintegers hv
    case h_2 kind fields =>
      obtain ⟨word, -, hread⟩ := Option.bind_eq_some_iff.1 hread
      have hfields : (Json.array fields).HasFiniteNumbers :=
        .array fun w hw => hv.of_mem_array (List.mem_cons_of_mem kind hw)
      exact (ofFields?_eq_some_iff.1 hread).isStorable hintegers hfields
    case h_3 => cases hread

end ElementaryGate

namespace Program

/-- Whether the width of a program and the wires of its gates have 32 bits, and its numbers are finite. -/
structure IsStorable (p : Program R) : Prop where
  width_lt : p.width < wireBound
  gates : ∀ g ∈ p.gates, g.IsStorable
  finite_phase : Scalar.isFinite p.phase = true

omit [Scalar R] in
/-- A program is read from exactly its four fields. -/
lemma ofJson?_eq_some_iff {v : Json R} {p : Program R} : ofJson? v = some p ↔
    ∃ width gates phase strategy,
      v.fields? ["num_qubits", "gates", "global_phase", "strategy"] = some [width, gates, phase, strategy] ∧
      width.nat? wireBound = some p.width ∧ gates.list? ElementaryGate.ofJson? = some p.gates ∧
      phase.scalar? = some p.phase ∧ strategy.word?.bind Strategy.ofRecordName? = some p.strategy := by
  constructor
  · intro h
    obtain ⟨values, hfields, h⟩ := Option.bind_eq_some_iff.1 h
    split at h
    case h_1 width gates phase strategy =>
      simp only [Option.bind_eq_bind, Option.bind_eq_some_iff, Option.pure_def, Option.some_inj] at h
      obtain ⟨w, hw, gs, hgs, t, ht, word, hword, s, hs, rfl⟩ := h
      exact ⟨width, gates, phase, strategy, hfields, hw, hgs, ht, Option.bind_eq_some_iff.2 ⟨word, hword, hs⟩⟩
    case h_2 => cases h
  · rintro ⟨width, gates, phase, strategy, hfields, hw, hgs, ht, hs⟩
    obtain ⟨word, hword, hs⟩ := Option.bind_eq_some_iff.1 hs
    simp [ofJson?, hfields, hw, hgs, ht, hword, hs]

/-- Programs whose wires and width have 32 bits and whose numbers are finite. -/
lemma codec (hintegers : ReadsIntegers R) : Codec (R := R) IsStorable toJson ofJson? where
  read_write p hp := by
    have hfields : p.toJson.fields? ["num_qubits", "gates", "global_phase", "strategy"] =
        some [.ofNat p.width, .array (p.gates.map ElementaryGate.toJson), .ofScalar p.phase,
          .string p.strategy.recordName] :=
      fields?_object [("num_qubits", .ofNat p.width), ("gates", .array (p.gates.map ElementaryGate.toJson)),
        ("global_phase", .ofScalar p.phase), ("strategy", .string p.strategy.recordName)] (by simp)
        (List.Subset.refl _)
    have hstrategy : (Json.string p.strategy.recordName : Json R).word?.bind Strategy.ofRecordName? = some p.strategy := by
      cases p.strategy <;> rfl
    exact ofJson?_eq_some_iff.2 ⟨_, _, _, _, hfields, (codec_nat wireBound_le).read_write p.width hp.width_lt,
      (ElementaryGate.codec hintegers).list.read_write p.gates hp.gates,
      (codec_scalar hintegers).read_write p.phase hp.finite_phase, hstrategy⟩
  finite_write p hp := by
    have hwidth := (codec_nat (R := R) wireBound_le).finite_write p.width hp.width_lt
    have hgates := (ElementaryGate.codec hintegers).list.finite_write p.gates hp.gates
    have hphase := (codec_scalar hintegers).finite_write p.phase hp.finite_phase
    refine .object (List.forall_mem_cons.2 ⟨hwidth, List.forall_mem_cons.2 ⟨hgates, ?_⟩⟩)
    exact List.forall_mem_cons.2 ⟨hphase, List.forall_mem_singleton.2 (.string _)⟩
  storable_of_read v p hv hread := by
    obtain ⟨width, gates, phase, strategy, hfields, hw, hgs, ht, -⟩ := ofJson?_eq_some_iff.1 hread
    have hnumbers := hv.of_fields? hfields
    exact ⟨(codec_nat wireBound_le).storable_of_read width p.width (hnumbers width (by simp)) hw,
      (ElementaryGate.codec hintegers).list.storable_of_read gates p.gates (hnumbers gates (by simp)) hgs,
      (codec_scalar hintegers).storable_of_read phase p.phase (hnumbers phase (by simp)) ht⟩

end Program

end CircuitSynthesis
