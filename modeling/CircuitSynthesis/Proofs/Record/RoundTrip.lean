import Mathlib
import CircuitSynthesis.Proofs.Exact.Scalar
import CircuitSynthesis.Proofs.Json.Writing
import CircuitSynthesis.Proofs.Record.Circuit

/-!
# Records are read back

`recovered_records`: programs and circuits are the same after being written and read, be it as values or as texts, and
what was read from any value is the same after being written and read again.
-/

namespace CircuitSynthesis

open Json

section Recovery

variable {R : Type} [Scalar R] [DecimalText R]

/-- Whether a value of a type is read back from its record, and the record from both of its texts if the numbers in it
are read back from theirs. -/
structure Recovered {α : Type} (write : α → Json R) (read : Json R → Option α) (a : α) : Prop where
  read_write : read (write a) = some a
  parse_compact : (write a).Numbers Legible → parse (write a).compact = .ok (write a)
  parse_pretty : (write a).Numbers Legible → parse (write a).pretty = .ok (write a)

/-- What a codec can store is recovered. -/
lemma Json.Codec.recovered {α : Type} {Storable : α → Prop} {write : α → Json R} {read : Json R → Option α}
    (h : Codec Storable write read) {a : α} (ha : Storable a) : Recovered write read a :=
  ⟨h.read_write a ha, Json.parse_compact, Json.parse_pretty⟩

/-- Programs and circuits whose wires and widths have 32 bits and whose numbers are finite are read back, as values and as
texts. So are those that were read from any value with finite numbers, if integers are read as finite numbers. -/
theorem recovered_records (hintegers : ReadsIntegers R) :
    (∀ p : Program R, p.IsStorable → Recovered Program.toJson Program.ofJson? p) ∧
    (∀ c : Circuit R, c.IsStorable → Recovered Circuit.toJson Circuit.ofJson? c) ∧
    (∀ (v : Json R) (p : Program R), v.HasFiniteNumbers → Program.ofJson? v = some p →
      Recovered Program.toJson Program.ofJson? p) ∧
    ∀ (v : Json R) (c : Circuit R), v.HasFiniteNumbers → Circuit.ofJson? v = some c →
      Recovered Circuit.toJson Circuit.ofJson? c := by
  have hprogram := Program.codec hintegers
  have hcircuit := Circuit.codec hintegers
  exact ⟨fun p => hprogram.recovered, fun c => hcircuit.recovered,
    fun v p hv hread => hprogram.recovered (hprogram.storable_of_read v p hv hread),
    fun v c hv hread => hcircuit.recovered (hcircuit.storable_of_read v c hv hread)⟩

end Recovery

section Example

/-- Decimals are read exactly, and one number is written. -/
noncomputable local instance halfText : DecimalText ℝ where
  ofDecimal negative m e := (if negative then -1 else 1) * (m * ((10 : ℕ) : ℝ) ^ e)
  plain _ := ""
  exponential _ := ""
  compact x := if x = 1 / 2 then "0.5" else ""
  fixed _ _ := ""
  scientific _ _ := ""

/-- A fraction below one is read as its places. -/
lemma read?_fraction (places : List Char) {rest : List Char} (hne : places ≠ []) (hplaces : ∀ c ∈ places, c.isDigit = true)
    (h : Numeral.Ends rest) :
    Numeral.read? ('0' :: '.' :: (places ++ rest)) = some (⟨false, ['0'], some places, none⟩, rest) := by
  have hdigits := Numeral.digits?_append hne hplaces (fun c hc => (h c hc).1)
  have hwhole : Numeral.digits? ('0' :: '.' :: (places ++ rest)) = some (['0'], '.' :: (places ++ rest)) := rfl
  simp [Numeral.read?, hwhole, Numeral.places?, hdigits, Numeral.exponent?_of_ends h]

/-- One half is read back from its text. -/
lemma legible_half : Legible (1 / 2 : ℝ) := by
  have hvalue : Numeral.value? ⟨false, ['0'], some ['5'], none⟩ = some (float (1 / 2 : ℝ)) := by
    simp [Numeral.value?, Numeral.absorb, Numeral.digitValue, Numeral.scaled?, Numeral.divideLargest,
      Numeral.largestPower, Numeral.powerOfTen, DecimalText.ofDecimal]
    norm_num
  have htext : DecimalText.compact (1 / 2 : ℝ) = "0.5" := if_pos rfl
  rw [Legible, htext]
  refine .of_succ (by simp) fun fuel rest _ hrest => ?_
  have hcons : "0.5".toList ++ rest = '0' :: '.' :: (['5'] ++ rest) := rfl
  have hread := read?_fraction ['5'] (by simp) (by simp) hrest.ends
  rw [hcons, value_of_numeral (.inr (by decide)), Reader.number, hread]
  simp only [Reader.orMalformed, bind, Except.bind, hvalue]
  rfl

/-- A program with one gate of each kind. -/
noncomputable def halfProgram : Program ℝ where
  width := 2
  gates :=
    [.rotation 0 .y (1 / 2), .entangler 0 1,
      .unitary 1 ⟨⟨1 / 2, 1 / 2⟩, ⟨1 / 2, 1 / 2⟩, ⟨1 / 2, 1 / 2⟩, ⟨1 / 2, 1 / 2⟩⟩]
  phase := 1 / 2
  strategy := .general

/-- A circuit with a fixed gate, a rotation and a matrix. -/
noncomputable def halfCircuit : Circuit ℝ where
  name := "one \"half\"\n"
  width := 2
  instructions :=
    #[⟨.standard .cx, [0, 1]⟩, ⟨.standard (.rz (1 / 2)), [0]⟩, ⟨.matrix ⟨"m", 0, #[⟨1 / 2, 1 / 2⟩]⟩, []⟩]
  phase := 1 / 2

/-- The program whose record is a list, with an integer for its angle. -/
def listedProgram : Json ℝ :=
  .array [.int 1, .array [.array [.string "rotation", .int 0, .string "z", .int 1]], .float 0, .string "diagonal"]

/-- The program of the example can be stored. -/
lemma storable_halfProgram : halfProgram.IsStorable where
  width_lt := by decide
  gates := by
    have hwires : 0 < wireBound ∧ 1 < wireBound := by decide
    simp [halfProgram, ElementaryGate.IsStorable, Matrix2.IsStorable, Matrix2.entries, Amplitude.isFinite,
      Scalar.isFinite, hwires]
  finite_phase := rfl

/-- The circuit of the example can be stored. -/
lemma storable_halfCircuit : halfCircuit.IsStorable where
  width_lt := by decide
  instructions := by
    have hwires : 0 < wireBound ∧ 1 < wireBound := by decide
    have hgates : ∀ op ∈ halfCircuit.instructions.toList, op.gate.IsStorable ∧ ∀ q ∈ op.wires, q < wireBound := by
      have hmatrix : (⟨"m", 0, #[⟨1 / 2, 1 / 2⟩]⟩ : MatrixGate ℝ).IsStorable :=
        ⟨hwires.1, by simp [Amplitude.isFinite, Scalar.isFinite]⟩
      simpa [halfCircuit, Gate.IsStorable, StandardGate.IsStorable, hwires, Scalar.isFinite] using hmatrix
    exact fun op hop => ⟨(hgates op hop).1, (hgates op hop).2⟩
  finite_phase := rfl

/-- The numbers of the program are read back from their texts. -/
lemma legible_halfProgram : halfProgram.toJson.Numbers Legible := by
  simpa [halfProgram, Program.toJson, ElementaryGate.toJson, Matrix2.toJson, Matrix2.entries, Amplitude.toJson,
    ofScalar, ofNat, Scalar.isFinite] using legible_half

/-- The numbers of the circuit are read back from their texts. -/
lemma legible_halfCircuit : halfCircuit.toJson.Numbers Legible := by
  simpa [halfCircuit, Circuit.toJson, Instruction.toJson, Gate.toJson, StandardGate.toJson, StandardGate.angle?,
    MatrixGate.toJson, Amplitude.toJson, ofScalar, ofNat, Scalar.isFinite] using legible_half

/-- The record that is a list has finite numbers. -/
lemma finite_listedProgram : listedProgram.HasFiniteNumbers := by
  simp [listedProgram, HasFiniteNumbers, Scalar.isFinite]

/-- A program with one gate of each kind, and a circuit with one operation of each kind, are read back from their values
and texts, and a program that was read from a list is read back from its record. -/
theorem recovered_records_half :
    (Program.ofJson? halfProgram.toJson = some halfProgram ∧
      parse halfProgram.toJson.compact = .ok halfProgram.toJson) ∧
    (Circuit.ofJson? halfCircuit.toJson = some halfCircuit ∧
      parse halfCircuit.toJson.pretty = .ok halfCircuit.toJson) ∧
    ∃ p : Program ℝ, Program.ofJson? listedProgram = some p ∧ Program.ofJson? p.toJson = some p := by
  have hintegers : ReadsIntegers ℝ := fun _ _ _ => rfl
  obtain ⟨hprogram, hcircuit, hread, -⟩ := recovered_records hintegers
  have hp := hprogram halfProgram storable_halfProgram
  have hc := hcircuit halfCircuit storable_halfCircuit
  have hlisted : Program.ofJson? listedProgram = some ⟨1, [.rotation 0 .z (DecimalText.ofInt 1)], 0, .diagonal⟩ := rfl
  exact ⟨⟨hp.read_write, hp.parse_compact legible_halfProgram⟩,
    ⟨hc.read_write, hc.parse_pretty legible_halfCircuit⟩, _, hlisted,
    (hread listedProgram _ finite_listedProgram hlisted).read_write⟩

end Example

end CircuitSynthesis
