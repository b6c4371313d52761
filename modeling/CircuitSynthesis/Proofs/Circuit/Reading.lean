import Mathlib
import CircuitSynthesis.Proofs.Record.RoundTrip
import CircuitSynthesis.Proofs.Statevector.Checked

/-!
# Circuits that were read

The builder checks operands and matrices, the reader of records does not. `Circuit.built_iff_isWellFormed` says which
circuits the builder makes, `Circuit.layers?_isSome_iff` which circuits can be scheduled. A record may hold any circuit at
all (`Circuit.read_and_built`), so one that was read may be neither.
-/

namespace CircuitSynthesis

namespace Circuit

section Layers

variable {s s' : Schedule} {wires : List ℕ}

/-- A level is found only for wires of the schedule. -/
lemma Schedule.lt_size_of_levelOf? {level : ℕ} (h : s.levelOf? wires = some level) : ∀ q ∈ wires, q < s.used.size := by
  refine (forall_of_foldlM_eq_some (P := fun _ => True) trivial (fun level _ q level' hstep => ⟨?_, trivial⟩) h).1
  obtain ⟨used, hused, -⟩ := Option.bind_eq_some_iff.1 hstep
  exact (Array.getElem?_eq_some_iff.1 hused).1

/-- An instruction is only placed if its wires exist, and no wire is gained or lost. -/
lemma Schedule.lt_size_of_place? {index : ℕ} (h : s.place? index wires = some s') :
    (∀ q ∈ wires, q < s.used.size) ∧ s'.used.size = s.used.size := by
  simp only [place?, Option.bind_eq_bind, Option.bind_eq_some_iff, Option.pure_def, Option.some_inj] at h
  obtain ⟨level, hlevel, -, -, used, hused, rfl⟩ := h
  have hsize := forall_of_foldlM_eq_some (P := fun used => used.size = s.used.size) (Q := fun _ => True) rfl
    (fun used hused q used' hstep => ⟨trivial, ?_⟩) hused
  · exact ⟨lt_size_of_levelOf? hlevel, hsize.2⟩
  · obtain ⟨-, -, hset⟩ := Option.bind_eq_some_iff.1 hstep
    rw [← Option.some.inj hset, Array.size_setIfInBounds, hused]

variable {R : Type} {c : Circuit R}

/-- A circuit can be scheduled if and only if all operands are among its wires. -/
lemma layers?_isSome_iff : c.layers?.isSome ↔ ∀ op ∈ c.instructions, ∀ q ∈ op.wires, q < c.width := by
  constructor
  · intro h
    obtain ⟨rows, hrows⟩ := Option.isSome_iff_exists.1 h
    obtain ⟨s, hs, -⟩ := Option.bind_eq_some_iff.1 hrows
    have hrange := (forall_of_foldlM_eq_some (P := fun s => s.used.size = c.width)
      (Q := fun op => ∀ q ∈ op.1.wires, q < c.width) Array.size_replicate (fun s hsize op s' hstep => ?_) hs).1
    · intro op hop
      obtain ⟨index, hindex, rfl⟩ := List.mem_iff_getElem.1 (Array.mem_toList_iff.2 hop)
      exact hrange (_, index) (List.mk_mem_zipIdx_iff_getElem?.2 (List.getElem?_eq_getElem hindex))
    · obtain ⟨hwires, hkept⟩ := Schedule.lt_size_of_place? hstep
      exact ⟨hsize ▸ hwires, hkept.trans hsize⟩
  · intro h
    rw [layers?_eq_of_range h]
    rfl

end Layers

section WellFormed

variable {R : Type}

/-- Whether every instruction is placed on the wires of a circuit and every matrix has all entries. -/
structure IsWellFormed (c : Circuit R) : Prop where
  placed : ∀ op ∈ c.instructions, op.IsPlaced c.width
  full : ∀ op ∈ c.instructions, ∀ g, op.gate = .matrix g → g.entries.size = 4 ^ g.arity

/-- A gate whose matrix has all of its entries is one that could have been made. -/
lemma made_of_full {g : Gate R} (h : ∀ m, g = .matrix m → m.entries.size = 4 ^ m.arity) : g.Made := by
  cases g with
  | standard g => exact .standard g
  | matrix g =>
    have hsize : g.entries.size = 2 ^ g.arity * 2 ^ g.arity := (h g rfl).trans (mul_pow 2 2 _)
    exact .matrix (if_pos hsize)

variable [Zero R] [Add R] {c : Circuit R}

/-- The circuits that the builder makes are the well-formed ones. -/
lemma built_iff_isWellFormed : c.Built ↔ c.IsWellFormed := by
  constructor
  · refine fun h => ⟨h.isPlaced, fun op hop g hgate => ?_⟩
    have hmade := h.made op hop
    rw [hgate] at hmade
    exact hmade.size_entries
  · intro h
    have hprefix (ops : List (Instruction R)) (hops : ∀ op ∈ ops, op.IsPlaced c.width ∧ op.gate.Made) :
        Built (⟨c.name, c.width, ops.toArray, 0⟩ : Circuit R) := by
      induction ops using List.reverseRecOn with
      | nil => exact .empty c.name c.width
      | append_singleton ops op ih =>
        rw [List.forall_mem_append] at hops
        obtain ⟨hplaced, hmade⟩ := hops.2 op (List.mem_singleton_self op)
        simpa using (ih hops.1).push hmade hplaced
    have hall := hprefix c.instructions.toList fun op hop =>
      ⟨h.placed op (Array.mem_toList_iff.1 hop), made_of_full (h.full op (Array.mem_toList_iff.1 hop))⟩
    exact hall.setPhase c.phase

end WellFormed

section Read

variable {R : Type} [Scalar R] [DecimalText R]

open Json

/-- A circuit is read from some record whenever its wires and its width have 32 bits and its numbers are finite, whereas
the builder only makes well-formed ones. Exactly those whose operands are among their wires can be scheduled. The layers
of a well-formed circuit and its action on a state never ask for an index out of range. -/
theorem read_and_built (hintegers : ReadsIntegers R) :
    (∀ c : Circuit R, (∃ v : Json R, v.HasFiniteNumbers ∧ ofJson? v = some c) ↔ c.IsStorable) ∧
    (∀ c : Circuit R, c.Built ↔ c.IsWellFormed) ∧
    (∀ c : Circuit R, c.layers?.isSome ↔ ∀ op ∈ c.instructions, ∀ q ∈ op.wires, q < c.width) ∧
    ∀ c : Circuit R, c.IsWellFormed → c.layers? = some c.layers ∧
      ∀ s : Statevector R c.width, s.applyCircuit? c = some (.ok (s.run c)) :=
  ⟨fun _ => (codec hintegers).exists_read_iff, fun _ => built_iff_isWellFormed, fun _ => layers?_isSome_iff,
    fun _ h => ⟨layers?_eq h.placed, Statevector.applyCircuit?_eq (built_iff_isWellFormed.2 h)⟩⟩

end Read

section Example

open Json

/-- Decimals are read exactly. -/
noncomputable local instance decimalText : DecimalText ℝ := halfText

/-- A controlled-NOT on two wires. -/
noncomputable def pairCircuit : Circuit ℝ := ⟨"pair", 2, #[⟨.standard .cx, [0, 1]⟩], 0⟩

/-- The circuit of two instructions is well formed. -/
lemma isWellFormed_pairCircuit : pairCircuit.IsWellFormed where
  placed op hop := by
    obtain rfl : op = ⟨.standard .cx, [0, 1]⟩ := by simpa [pairCircuit] using hop
    exact ⟨rfl, by decide, by decide⟩
  full op hop g hgate := by
    obtain rfl : op = ⟨.standard .cx, [0, 1]⟩ := by simpa [pairCircuit] using hop
    cases hgate

/-- A well-formed circuit is read from some record, the builder makes it, and it can be scheduled and simulated. -/
theorem read_and_built_pair :
    (∃ v : Json ℝ, v.HasFiniteNumbers ∧ ofJson? v = some pairCircuit) ∧ pairCircuit.Built ∧
    pairCircuit.layers?.isSome ∧
    ∀ s : Statevector ℝ 2, s.applyCircuit? pairCircuit = some (.ok (s.run pairCircuit)) := by
  have hintegers : ReadsIntegers ℝ := fun _ _ _ => rfl
  obtain ⟨hread, hbuilt, hlayers, hsafe⟩ := read_and_built hintegers
  have hstorable : pairCircuit.IsStorable := by
    refine ⟨by decide, fun op hop => ?_, rfl⟩
    obtain rfl : op = ⟨.standard .cx, [0, 1]⟩ := by simpa [pairCircuit] using hop
    exact ⟨nofun, by decide⟩
  refine ⟨(hread pairCircuit).2 hstorable, (hbuilt pairCircuit).2 isWellFormed_pairCircuit, ?_,
    (hsafe pairCircuit isWellFormed_pairCircuit).2⟩
  exact (hlayers pairCircuit).2 fun op hop => (isWellFormed_pairCircuit.placed op hop).range

/-- The record of a circuit with one fixed gate. -/
noncomputable def singleRecord (name gate : String) (width : ℤ) (wires : List ℤ) : Json ℝ :=
  .object [("name", .string name), ("num_qubits", .int width),
    ("instructions", .array [.object
      [("gate", .object [("standard", .object [("name", .string gate)])]), ("qubits", .array (wires.map .int))]]),
    ("global_phase", .float 0)]

/-- A controlled-NOT whose control is its target. -/
noncomputable def loopCircuit : Circuit ℝ := ⟨"loop", 1, #[⟨.standard .cx, [0, 0]⟩], 0⟩

/-- A gate beyond the last wire. -/
noncomputable def strayCircuit : Circuit ℝ := ⟨"stray", 2, #[⟨.standard .h, [5]⟩], 0⟩

/-- A circuit that uses a wire twice in one instruction and a circuit that cannot be scheduled are read. -/
theorem read_loop_and_stray :
    ((singleRecord "loop" "cx" 1 [0, 0]).HasFiniteNumbers ∧
      ofJson? (singleRecord "loop" "cx" 1 [0, 0]) = some loopCircuit ∧ ¬ loopCircuit.IsWellFormed) ∧
    (singleRecord "stray" "h" 2 [5]).HasFiniteNumbers ∧
      ofJson? (singleRecord "stray" "h" 2 [5]) = some strayCircuit ∧ strayCircuit.layers? = none := by
  refine ⟨⟨?_, ?_, ?_⟩, ?_, ?_, ?_⟩
  · simp [singleRecord, HasFiniteNumbers, Scalar.isFinite]
  · rfl
  · intro h
    have hplaced := h.placed ⟨.standard .cx, [0, 0]⟩ (by simp [loopCircuit])
    exact absurd hplaced.nodup (by decide)
  · simp [singleRecord, HasFiniteNumbers, Scalar.isFinite]
  · rfl
  · refine Option.not_isSome_iff_eq_none.1 fun h => ?_
    have hrange := layers?_isSome_iff.1 h ⟨.standard .h, [5]⟩ (by simp [strayCircuit]) 5 (by simp)
    exact absurd hrange (by decide)

end Example

end Circuit

end CircuitSynthesis
