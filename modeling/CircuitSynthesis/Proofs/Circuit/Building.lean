import Mathlib
import CircuitSynthesis.Circuit.Basic

/-!
# Building circuits

The builder checks every instruction before it enters a circuit: `push_eq_ok_iff` says that an instruction is accepted if
and only if it is placed on as many distinct wires of the circuit as its gate has operands, and that it is then added at
the end. `Circuit.Built` collects the circuits that can be made in this way, and by `Built.isPlaced` all instructions of
such a circuit are placed on its wires.
-/

namespace CircuitSynthesis

variable {R : Type}

namespace Instruction

/-- Whether an instruction lists as many wires as its gate has operands, all of them distinct and below `n`. -/
structure IsPlaced (op : Instruction R) (n : ℕ) : Prop where
  length : op.wires.length = op.gate.arity
  nodup : op.wires.Nodup
  range : ∀ q ∈ op.wires, q < n

/-- No fault is found among wires that are in range, distinct and none of those passed already. -/
lemma findFault?_eq_none_iff (gate : String) (width : ℕ) (seen wires : List ℕ) :
    findFault? gate width seen wires = none ↔ (∀ q ∈ wires, q < width ∧ q ∉ seen) ∧ wires.Nodup := by
  induction wires generalizing seen with
  | nil => simp [findFault?]
  | cons q wires ih =>
    rw [findFault?, List.forall_mem_cons, List.nodup_cons]
    split
    case isTrue hrange => simp [not_lt.2 hrange]
    case isFalse hrange =>
      split
      case isTrue hseen => simp [hseen]
      case isFalse hseen =>
        rw [ih]
        simp only [List.mem_cons, not_or]
        constructor
        · rintro ⟨hrest, hnodup⟩
          exact ⟨⟨⟨not_le.1 hrange, hseen⟩, fun p hp => ⟨(hrest p hp).1, (hrest p hp).2.2⟩⟩,
            fun hq => (hrest q hq).2.1 rfl, hnodup⟩
        · rintro ⟨⟨-, hrest⟩, hq, hnodup⟩
          exact ⟨fun p hp => ⟨(hrest p hp).1, fun h => hq (h ▸ hp), (hrest p hp).2⟩, hnodup⟩

/-- An instruction passes the check of a circuit exactly if it is placed on its wires. -/
lemma check_eq_ok_iff {op : Instruction R} {n : ℕ} : op.check n = .ok () ↔ op.IsPlaced n := by
  rw [check]
  split
  case isTrue hlength =>
    have hfault := findFault?_eq_none_iff op.name n [] op.wires
    split
    case h_1 fault hfound =>
      rw [hfound] at hfault
      refine ⟨nofun, fun h => ?_⟩
      exact absurd (hfault.2 ⟨fun q hq => ⟨h.range q hq, List.not_mem_nil⟩, h.nodup⟩) nofun
    case h_2 hnone =>
      obtain ⟨hrange, hnodup⟩ := hfault.1 hnone
      exact ⟨fun _ => ⟨hlength.symm, hnodup, fun q hq => (hrange q hq).1⟩, fun _ => rfl⟩
  case isFalse hlength => exact ⟨nofun, fun h => absurd h.length.symm hlength⟩

end Instruction

/-- The fixed gates, and the gates whose matrix has been counted. -/
inductive Gate.Made : Gate R → Prop
  | standard (g : StandardGate R) : Made (.standard g)
  | matrix {name : String} {arity : ℕ} {entries : Array (Amplitude R)} {g : MatrixGate R} :
    MatrixGate.make name arity entries = .ok g → Made (.matrix g)

namespace Circuit

variable {c c' d : Circuit R} {op : Instruction R}

/-- An instruction is accepted if and only if it is placed on the wires of the circuit, and it is then added at the end. -/
lemma push_eq_ok_iff :
    c.push op = .ok c' ↔ op.IsPlaced c.width ∧ c' = { c with instructions := c.instructions.push op } := by
  rw [push, ← Instruction.check_eq_ok_iff]
  cases op.check c.width with
  | error e => exact ⟨nofun, fun h => absurd h.1 nofun⟩
  | ok u => exact ⟨fun h => ⟨rfl, (Except.ok.inj h).symm⟩, fun h => congrArg Except.ok h.2.symm⟩

/-- Circuits are joined if and only if their widths are equal. -/
lemma append_eq_ok_iff [Add R] : c.append d = .ok c' ↔ d.width = c.width ∧
    c' = { c with instructions := c.instructions ++ d.instructions, phase := c.phase + d.phase } := by
  rw [append]
  split
  case isTrue hwidth => exact ⟨fun h => ⟨hwidth, (Except.ok.inj h).symm⟩, fun h => congrArg Except.ok h.2.symm⟩
  case isFalse hwidth => exact ⟨nofun, fun h => absurd h.1 hwidth⟩

/-- The circuits that the builder makes. A refused call makes no new circuit. -/
inductive Built [Zero R] [Add R] : Circuit R → Prop
  | empty (name : String) (width : ℕ) : Built (.empty name width)
  | gate {c c' : Circuit R} {g : Gate R} {wires : List ℕ} :
    Built c → g.Made → c.gate g wires = .ok c' → Built c'
  | append {c c' d : Circuit R} : Built c → Built d → c.append d = .ok c' → Built c'
  | addPhase {c : Circuit R} (phase : R) : Built c → Built (c.addPhase phase)
  | setPhase {c : Circuit R} (phase : R) : Built c → Built (c.setPhase phase)

namespace Built

variable [Zero R] [Add R]

/-- A made gate can be put on any wires that are distinct, in range and as many as its operands. -/
lemma push (hc : c.Built) (hgate : op.gate.Made) (h : op.IsPlaced c.width) :
    Built { c with instructions := c.instructions.push op } :=
  hc.gate hgate (push_eq_ok_iff.2 ⟨h, rfl⟩)

/-- Every instruction of a built circuit is placed on its wires. -/
theorem isPlaced (hc : c.Built) : ∀ op ∈ c.instructions, op.IsPlaced c.width := by
  induction hc with
  | empty name width => exact fun op hop => absurd hop (Array.not_mem_empty op)
  | gate _ _ h ih =>
    obtain ⟨hplaced, rfl⟩ := push_eq_ok_iff.1 h
    intro op hop
    rcases Array.mem_push.1 hop with hold | rfl
    · exact ih op hold
    · exact hplaced
  | append _ _ h ihc ihd =>
    obtain ⟨hwidth, rfl⟩ := append_eq_ok_iff.1 h
    intro op hop
    rcases Array.mem_append.1 hop with hleft | hright
    · exact ihc op hleft
    · exact hwidth ▸ ihd op hright
  | addPhase _ _ ih => exact ih
  | setPhase _ _ ih => exact ih

end Built

end Circuit

end CircuitSynthesis
