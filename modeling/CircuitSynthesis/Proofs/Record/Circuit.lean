import Mathlib
import CircuitSynthesis.Circuit.Record
import CircuitSynthesis.Proofs.Record.Program

/-!
# Records of circuits

The records of circuits nest those of instructions, of gates and of matrices. `Circuit.codec` says that reading undoes
writing, and also which circuits are read from some record: all whose wires have 32 bits and whose numbers are finite,
wherever their operands lie and whatever the size of their matrices.
-/

namespace CircuitSynthesis

open Json

variable {R : Type} [Scalar R] [DecimalText R]

namespace StandardGate

/-- Whether the angle of a fixed gate is finite, if it has one. -/
def IsStorable (g : StandardGate R) : Prop := ∀ t, g.angle? = some t → Scalar.isFinite t = true

omit [Scalar R] [DecimalText R] in
/-- A gate named like a rotation has an angle. -/
lemma angle?_of_ofRotationName? {name : String} {rotation : R → StandardGate R}
    (h : ofRotationName? name = some rotation) (t : R) : (rotation t).angle? = some t := by
  rw [ofRotationName?.eq_def] at h
  split at h <;> cases h <;> rfl

omit [Scalar R] [DecimalText R] in
/-- A gate named like any other has none. -/
lemma angle?_of_ofName? {name : String} {g : StandardGate R} (h : ofName? name = some g) : g.angle? = none := by
  rw [ofName?.eq_def] at h
  split at h <;> cases h <;> rfl

/-- A fixed gate is known by its name and its angle. -/
lemma ofNameAndAngle?_name (hintegers : ReadsIntegers R) {g : StandardGate R} (hg : g.IsStorable) :
    ofNameAndAngle? g.name (g.angle?.map ofScalar) = some g := by
  have hangle {t : R} (ht : g.angle? = some t) : (ofScalar t).scalar? = some t :=
    (codec_scalar hintegers).read_write t (hg t ht)
  cases g with
  | rx t | ry t | rz t => simp [name, angle?, ofNameAndAngle?, ofRotationName?, hangle rfl]
  | _ => rfl

/-- A gate read with finite numbers can be stored. -/
lemma isStorable_of_ofNameAndAngle? (hintegers : ReadsIntegers R) {name : String} {angle : Option (Json R)}
    (hangle : ∀ v ∈ angle, v.HasFiniteNumbers) {g : StandardGate R} (h : ofNameAndAngle? name angle = some g) :
    g.IsStorable := by
  intro t ht
  rw [ofNameAndAngle?.eq_def] at h
  split at h
  case h_1 rotation hrotation =>
    simp only [Option.bind_eq_bind, Option.bind_eq_some_iff, Option.pure_def, Option.some_inj] at h
    obtain ⟨v, hv, t', ht', rfl⟩ := h
    obtain rfl : t' = t := Option.some.inj ((angle?_of_ofRotationName? hrotation t').symm.trans ht)
    exact (codec_scalar hintegers).storable_of_read v t' (hangle v hv) ht'
  case h_2 =>
    have hname : ofName? name = some g := by
      split at h
      case h_1 | h_2 => exact h
      case h_3 => cases h
    rw [angle?_of_ofName? hname] at ht
    cases ht

/-- Fixed gates whose angle, if they have one, is finite. -/
lemma codec (hintegers : ReadsIntegers R) : Codec (R := R) IsStorable toJson ofJson? where
  read_write g hg := by
    rw [← ofNameAndAngle?_name hintegers hg, toJson]
    cases g.angle? <;> simp [ofJson?, exactlyOne?, atMostOne?, valuesOf, word?]
  finite_write g hg := by
    rw [toJson]
    split
    case h_1 t ht =>
      have hangle := (codec_scalar hintegers).finite_write t (hg t ht)
      exact .object (List.forall_mem_cons.2 ⟨.string _, List.forall_mem_singleton.2 hangle⟩)
    case h_2 => exact .object (List.forall_mem_singleton.2 (.string _))
  storable_of_read v g hv hread := by
    rw [ofJson?.eq_def] at hread
    split at hread
    case h_1 members =>
      simp only [Option.bind_eq_bind, Option.bind_eq_some_iff] at hread
      obtain ⟨-, -, name, -, angle, hangle, hread⟩ := hread
      refine isStorable_of_ofNameAndAngle? hintegers (fun w hw => ?_) hread
      exact hv.of_mem_object (mem_of_atMostOne? (hangle.trans (congrArg some hw)))
    case h_2 name angle =>
      obtain ⟨word, -, hread⟩ := Option.bind_eq_some_iff.1 hread
      refine isStorable_of_ofNameAndAngle? hintegers (fun w hw => ?_) hread
      exact Option.some.inj hw ▸ hv.of_mem_array (by simp)
    case h_3 => cases hread

end StandardGate

namespace MatrixGate

/-- Whether the arity of a matrix gate has 32 bits and its entries are finite. -/
structure IsStorable (g : MatrixGate R) : Prop where
  arity_lt : g.arity < wireBound
  finite_entries : ∀ z ∈ g.entries.toList, z.isFinite = true

omit [Scalar R] in
/-- A matrix gate is read from exactly its three fields. -/
lemma ofJson?_eq_some_iff {v : Json R} {g : MatrixGate R} : ofJson? v = some g ↔
    ∃ name arity entries, v.fields? ["name", "num_qubits", "matrix"] = some [name, arity, entries] ∧
      name.string? = some g.name ∧ arity.nat? wireBound = some g.arity ∧
      entries.list? Amplitude.ofJson? = some g.entries.toList := by
  constructor
  · intro h
    obtain ⟨values, hfields, h⟩ := Option.bind_eq_some_iff.1 h
    split at h
    case h_1 name arity entries =>
      simp only [Option.bind_eq_bind, Option.bind_eq_some_iff, Option.pure_def, Option.some_inj] at h
      obtain ⟨s, hs, k, hk, zs, hzs, rfl⟩ := h
      exact ⟨name, arity, entries, hfields, hs, hk, hzs⟩
    case h_2 => cases h
  · rintro ⟨name, arity, entries, hfields, hs, hk, hzs⟩
    simp [ofJson?, hfields, hs, hk, hzs]

/-- Matrix gates whose arity has 32 bits and whose entries are finite. -/
lemma codec (hintegers : ReadsIntegers R) : Codec (R := R) IsStorable toJson ofJson? where
  read_write g hg := by
    have hfields : g.toJson.fields? ["name", "num_qubits", "matrix"] =
        some [.string g.name, .ofNat g.arity, .array (g.entries.toList.map Amplitude.toJson)] :=
      fields?_object [("name", .string g.name), ("num_qubits", .ofNat g.arity),
        ("matrix", .array (g.entries.toList.map Amplitude.toJson))] (by simp) (List.Subset.refl _)
    exact ofJson?_eq_some_iff.2 ⟨_, _, _, hfields, rfl, (codec_nat wireBound_le).read_write g.arity hg.arity_lt,
      (Amplitude.codec hintegers).list.read_write g.entries.toList hg.finite_entries⟩
  finite_write g hg := by
    have harity := (codec_nat (R := R) wireBound_le).finite_write g.arity hg.arity_lt
    have hentries := (Amplitude.codec hintegers).list.finite_write g.entries.toList hg.finite_entries
    refine .object (List.forall_mem_cons.2 ⟨.string _, List.forall_mem_cons.2 ⟨harity, ?_⟩⟩)
    exact List.forall_mem_singleton.2 hentries
  storable_of_read v g hv hread := by
    obtain ⟨name, arity, entries, hfields, -, hk, hzs⟩ := ofJson?_eq_some_iff.1 hread
    have hnumbers := hv.of_fields? hfields
    exact ⟨(codec_nat wireBound_le).storable_of_read arity g.arity (hnumbers arity (by simp)) hk,
      (Amplitude.codec hintegers).list.storable_of_read entries g.entries.toList (hnumbers entries (by simp)) hzs⟩

end MatrixGate

namespace Gate

/-- Whether the arity of a gate has 32 bits and its numbers are finite. -/
def IsStorable : Gate R → Prop
  | standard g => g.IsStorable
  | matrix g => g.IsStorable

/-- Gates whose arity has 32 bits and whose numbers are finite. -/
lemma codec (hintegers : ReadsIntegers R) : Codec (R := R) IsStorable toJson ofJson? where
  read_write g hg := by
    cases g with
    | standard g => rw [toJson, ofJson?, (StandardGate.codec hintegers).read_write g hg]; rfl
    | matrix g => rw [toJson, ofJson?, (MatrixGate.codec hintegers).read_write g hg]; rfl
  finite_write g hg := by
    cases g with
    | standard g => exact .object (List.forall_mem_singleton.2 ((StandardGate.codec hintegers).finite_write g hg))
    | matrix g => exact .object (List.forall_mem_singleton.2 ((MatrixGate.codec hintegers).finite_write g hg))
  storable_of_read v g hv hread := by
    rw [ofJson?.eq_def] at hread
    split at hread
    case h_1 w =>
      simp only [Option.bind_eq_bind, Option.bind_eq_some_iff, Option.pure_def, Option.some_inj] at hread
      obtain ⟨g, hread, rfl⟩ := hread
      exact (StandardGate.codec hintegers).storable_of_read w g (hv.of_mem_object (List.mem_singleton_self _)) hread
    case h_2 w =>
      simp only [Option.bind_eq_bind, Option.bind_eq_some_iff, Option.pure_def, Option.some_inj] at hread
      obtain ⟨g, hread, rfl⟩ := hread
      exact (MatrixGate.codec hintegers).storable_of_read w g (hv.of_mem_object (List.mem_singleton_self _)) hread
    case h_3 => cases hread

end Gate

namespace Instruction

/-- Whether the wires of an instruction have 32 bits and its gate can be stored. -/
structure IsStorable (op : Instruction R) : Prop where
  gate : op.gate.IsStorable
  wires_lt : ∀ q ∈ op.wires, q < wireBound

omit [Scalar R] in
/-- An instruction is read from exactly its two fields. -/
lemma ofJson?_eq_some_iff {v : Json R} {op : Instruction R} : ofJson? v = some op ↔
    ∃ gate wires, v.fields? ["gate", "qubits"] = some [gate, wires] ∧ Gate.ofJson? gate = some op.gate ∧
      wires.list? (nat? wireBound) = some op.wires := by
  constructor
  · intro h
    obtain ⟨values, hfields, h⟩ := Option.bind_eq_some_iff.1 h
    split at h
    case h_1 gate wires =>
      simp only [Option.bind_eq_bind, Option.bind_eq_some_iff, Option.pure_def, Option.some_inj] at h
      obtain ⟨g, hg, ws, hws, rfl⟩ := h
      exact ⟨gate, wires, hfields, hg, hws⟩
    case h_2 => cases h
  · rintro ⟨gate, wires, hfields, hg, hws⟩
    simp [ofJson?, hfields, hg, hws]

/-- Instructions whose wires have 32 bits and whose gate can be stored. -/
lemma codec (hintegers : ReadsIntegers R) : Codec (R := R) IsStorable toJson ofJson? where
  read_write op hop := by
    have hfields : op.toJson.fields? ["gate", "qubits"] = some [op.gate.toJson, .array (op.wires.map ofNat)] :=
      fields?_object [("gate", op.gate.toJson), ("qubits", .array (op.wires.map ofNat))] (by simp)
        (List.Subset.refl _)
    exact ofJson?_eq_some_iff.2 ⟨_, _, hfields, (Gate.codec hintegers).read_write op.gate hop.gate,
      (codec_nat wireBound_le).list.read_write op.wires hop.wires_lt⟩
  finite_write op hop := by
    have hgate := (Gate.codec hintegers).finite_write op.gate hop.gate
    have hwires := (codec_nat (R := R) wireBound_le).list.finite_write op.wires hop.wires_lt
    exact .object (List.forall_mem_cons.2 ⟨hgate, List.forall_mem_singleton.2 hwires⟩)
  storable_of_read v op hv hread := by
    obtain ⟨gate, wires, hfields, hg, hws⟩ := ofJson?_eq_some_iff.1 hread
    have hnumbers := hv.of_fields? hfields
    exact ⟨(Gate.codec hintegers).storable_of_read gate op.gate (hnumbers gate (by simp)) hg,
      (codec_nat wireBound_le).list.storable_of_read wires op.wires (hnumbers wires (by simp)) hws⟩

end Instruction

namespace Circuit

/-- Whether the width of a circuit and its wires have 32 bits, and its numbers are finite. -/
structure IsStorable (c : Circuit R) : Prop where
  width_lt : c.width < wireBound
  instructions : ∀ op ∈ c.instructions.toList, op.IsStorable
  finite_phase : Scalar.isFinite c.phase = true

omit [Scalar R] in
/-- A circuit is read from exactly its four fields. -/
lemma ofJson?_eq_some_iff {v : Json R} {c : Circuit R} : ofJson? v = some c ↔
    ∃ name width instructions phase,
      v.fields? ["name", "num_qubits", "instructions", "global_phase"] = some [name, width, instructions, phase] ∧
      name.string? = some c.name ∧ width.nat? wireBound = some c.width ∧
      instructions.list? Instruction.ofJson? = some c.instructions.toList ∧ phase.scalar? = some c.phase := by
  constructor
  · intro h
    obtain ⟨values, hfields, h⟩ := Option.bind_eq_some_iff.1 h
    split at h
    case h_1 name width instructions phase =>
      simp only [Option.bind_eq_bind, Option.bind_eq_some_iff, Option.pure_def, Option.some_inj] at h
      obtain ⟨s, hs, w, hw, ops, hops, t, ht, rfl⟩ := h
      exact ⟨name, width, instructions, phase, hfields, hs, hw, hops, ht⟩
    case h_2 => cases h
  · rintro ⟨name, width, instructions, phase, hfields, hs, hw, hops, ht⟩
    simp [ofJson?, hfields, hs, hw, hops, ht]

/-- Circuits whose wires and width have 32 bits and whose numbers are finite. -/
lemma codec (hintegers : ReadsIntegers R) : Codec (R := R) IsStorable toJson ofJson? where
  read_write c hc := by
    have hfields : c.toJson.fields? ["name", "num_qubits", "instructions", "global_phase"] =
        some [.string c.name, .ofNat c.width, .array (c.instructions.toList.map Instruction.toJson),
          .ofScalar c.phase] :=
      fields?_object [("name", .string c.name), ("num_qubits", .ofNat c.width),
        ("instructions", .array (c.instructions.toList.map Instruction.toJson)), ("global_phase", .ofScalar c.phase)]
        (by simp) (List.Subset.refl _)
    exact ofJson?_eq_some_iff.2 ⟨_, _, _, _, hfields, rfl, (codec_nat wireBound_le).read_write c.width hc.width_lt,
      (Instruction.codec hintegers).list.read_write c.instructions.toList hc.instructions,
      (codec_scalar hintegers).read_write c.phase hc.finite_phase⟩
  finite_write c hc := by
    have hwidth := (codec_nat (R := R) wireBound_le).finite_write c.width hc.width_lt
    have hops := (Instruction.codec hintegers).list.finite_write c.instructions.toList hc.instructions
    have hphase := (codec_scalar hintegers).finite_write c.phase hc.finite_phase
    refine .object (List.forall_mem_cons.2 ⟨.string _, List.forall_mem_cons.2 ⟨hwidth, ?_⟩⟩)
    exact List.forall_mem_cons.2 ⟨hops, List.forall_mem_singleton.2 hphase⟩
  storable_of_read v c hv hread := by
    obtain ⟨name, width, instructions, phase, hfields, -, hw, hops, ht⟩ := ofJson?_eq_some_iff.1 hread
    have hnumbers := hv.of_fields? hfields
    exact ⟨(codec_nat wireBound_le).storable_of_read width c.width (hnumbers width (by simp)) hw,
      (Instruction.codec hintegers).list.storable_of_read instructions c.instructions.toList
        (hnumbers instructions (by simp)) hops,
      (codec_scalar hintegers).storable_of_read phase c.phase (hnumbers phase (by simp)) ht⟩

end Circuit

end CircuitSynthesis
