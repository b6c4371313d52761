import Mathlib
import CircuitSynthesis.Circuit.Builder
import CircuitSynthesis.Proofs.Circuit.Building

/-!
# Circuits built in place

A builder call does to the circuit in place what the function of the same name returns, and keeps the circuit if it fails
(`Building.Does`). Hence every circuit that calls can lead to, successful or not, is one that the builder makes:
`Reached.built`. The matrices of such a circuit have all their entries (`Built.made`, `Gate.Made.size_entries`).
-/

namespace CircuitSynthesis

variable {R : Type}

namespace Building

variable {call : Building R Unit} {c c' d : Circuit R} {op : Instruction R} {e : BuildError}

/-- A call leaves the circuit that is given, or fails with the error that is given and keeps the old circuit. -/
def Does (call : Building R Unit) (c : Circuit R) : Except BuildError (Circuit R) → Prop
  | .ok c' => call.outcome c = .ok () ∧ call.left c = c'
  | .error e => call.outcome c = .error e ∧ call.left c = c

/-- Such a call succeeds exactly if the pure operation returns the circuit that the call leaves. -/
lemma Does.outcome_eq_ok_iff {r : Except BuildError (Circuit R)} (h : call.Does c r) :
    call.outcome c = .ok () ↔ r = .ok (call.left c) := by
  cases r with
  | ok c' => exact iff_of_true h.1 (congrArg Except.ok h.2.symm)
  | error e => exact iff_of_false (fun hok => nomatch h.1.symm.trans hok) nofun

/-- A call that fails changes nothing. -/
lemma Does.left_of_error {r : Except BuildError (Circuit R)} (h : call.Does c r) (he : call.outcome c = .error e) :
    call.left c = c := by
  cases r with
  | ok c' => exact nomatch h.1.symm.trans he
  | error e => exact h.2

/-- What holds of the old circuit and of the new one holds of the circuit that is left. -/
lemma Does.left_induction {r : Except BuildError (Circuit R)} (h : call.Does c r) {P : Circuit R → Prop} (hold : P c)
    (hnew : ∀ c', r = .ok c' → P c') : P (call.left c) := by
  cases r with
  | ok c' => exact h.2.symm ▸ hnew c' rfl
  | error e => exact h.2.symm ▸ hold

/-- Reading the circuit first is the same as being handed it. -/
lemma does_get_bind {f : Circuit R → Building R Unit} {r : Except BuildError (Circuit R)} :
    Does (get >>= f) c r ↔ Does (f c) c r := by
  cases r <;> rfl

/-- A check that comes first ends the call or lets it go on. -/
lemma does_check_bind {α : Type} {check : Except BuildError α} {f : α → Building R Unit}
    {g : α → Except BuildError (Circuit R)} (h : ∀ a, (f a).Does c (g a)) : Does (liftM check >>= f) c (check >>= g) := by
  cases check with
  | error e => exact ⟨rfl, rfl⟩
  | ok a => exact h a

/-- Pushing an instruction leaves what the pure push returns. -/
theorem push_does (op : Instruction R) (c : Circuit R) : (push op).Does c (c.push op) := by
  rw [push, does_get_bind]
  exact does_check_bind fun _ => ⟨rfl, rfl⟩

/-- Pushing a matrix on one wire leaves what the pure call returns. -/
theorem unitary_does (entries : Array (Amplitude R)) (wire : ℕ) (c : Circuit R) :
    (unitary entries wire).Does c (c.unitary entries wire) :=
  does_check_bind fun g => push_does ⟨.matrix g, [wire]⟩ c

/-- Appending a circuit leaves what the pure call returns. -/
theorem append_does [Add R] (d c : Circuit R) : (append d).Does c (c.append d) := by
  rw [append, does_get_bind, Circuit.append]
  dsimp only
  by_cases hwidth : d.width = c.width
  case pos =>
    rw [if_neg (not_not.2 hwidth), if_pos hwidth]
    exact ⟨rfl, rfl⟩
  case neg =>
    rw [if_pos hwidth, if_neg hwidth]
    exact ⟨rfl, rfl⟩

end Building

/-- A gate that is made has a square matrix of the dimension of its operands. -/
lemma Gate.Made.size_entries {g : MatrixGate R} (h : (Gate.matrix g).Made) : g.entries.size = 4 ^ g.arity := by
  obtain - | hmake := h
  rw [MatrixGate.make] at hmake
  split at hmake
  case isTrue hsize =>
    cases hmake
    exact hsize.trans (mul_pow 2 2 _).symm
  case isFalse => cases hmake

namespace Circuit

variable {c : Circuit R}

/-- The gates of a built circuit are made. -/
theorem Built.made [Zero R] [Add R] (h : c.Built) : ∀ op ∈ c.instructions, op.gate.Made := by
  induction h with
  | empty name width => exact fun op hop => absurd hop (Array.not_mem_empty op)
  | gate _ hg h ih =>
    obtain ⟨-, rfl⟩ := push_eq_ok_iff.1 h
    intro op hop
    rcases Array.mem_push.1 hop with hold | rfl
    · exact ih op hold
    · exact hg
  | append _ _ h ihc ihd =>
    obtain ⟨-, rfl⟩ := append_eq_ok_iff.1 h
    intro op hop
    rcases Array.mem_append.1 hop with hleft | hright
    · exact ihc op hleft
    · exact ihd op hright
  | addPhase _ _ ih => exact ih
  | setPhase _ _ ih => exact ih

/-- The circuits that sequences of builder calls lead to. A call that fails is followed by others. -/
inductive Reached [Zero R] [Add R] : Circuit R → Prop
  | empty (name : String) (width : ℕ) : Reached (.empty name width)
  | gate {c : Circuit R} {g : Gate R} (wires : List ℕ) : Reached c → g.Made → Reached ((Building.gate g wires).left c)
  | unitary {c : Circuit R} (entries : Array (Amplitude R)) (wire : ℕ) :
    Reached c → Reached ((Building.unitary entries wire).left c)
  | append {c d : Circuit R} : Reached c → Reached d → Reached ((Building.append d).left c)
  | addPhase {c : Circuit R} (phase : R) : Reached c → Reached ((Building.addPhase phase).left c)
  | setPhase {c : Circuit R} (phase : R) : Reached c → Reached ((Building.setPhase phase).left c)

/-- A one-wire matrix that is accepted is a gate that was made and pushed. -/
lemma exists_of_unitary_eq_ok {c' : Circuit R} {entries : Array (Amplitude R)} {wire : ℕ}
    (h : c.unitary entries wire = .ok c') :
    ∃ g, MatrixGate.make "unitary" 1 entries = .ok g ∧ c.gate (.matrix g) [wire] = .ok c' := by
  rw [unitary] at h
  cases hmake : MatrixGate.make "unitary" 1 entries with
  | error e =>
    rw [hmake] at h
    cases h
  | ok g =>
    rw [hmake] at h
    exact ⟨g, rfl, h⟩

/-- Failed calls leave no trace. -/
theorem Reached.built [Zero R] [Add R] (h : c.Reached) : c.Built := by
  induction h with
  | empty name width => exact .empty name width
  | @gate c g wires _ hg ih => exact (Building.push_does ⟨g, wires⟩ c).left_induction ih fun c' h => ih.gate hg h
  | @unitary c entries wire _ ih =>
    refine (Building.unitary_does entries wire c).left_induction ih fun c' h => ?_
    obtain ⟨g, hg, hpush⟩ := exists_of_unitary_eq_ok h
    exact ih.gate (.matrix hg) hpush
  | @append c d _ _ ihc ihd => exact (Building.append_does d c).left_induction ihc fun c' h => ihc.append ihd h
  | addPhase phase _ ih => exact ih.addPhase phase
  | setPhase phase _ ih => exact ih.setPhase phase

end Circuit

end CircuitSynthesis
