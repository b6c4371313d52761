import Mathlib
import CircuitSynthesis.Proofs.Circuit.Programs

/-!
# One matrix on every wire

A circuit that applies one matrix to every wire and nothing else is a Kronecker product. The circuit reads wire `w` as bit `w`
of an index, while a Kronecker product divides an index into a quotient for its left factor and a remainder for its right one.
`tensorOperator` is the operator between the two: an entry is the product, over the wires, of the entries that the bits select.
`gatesOperator_perm` finds it for the gates in any order of the wires, `kronFold_ofFn` for the Kronecker products taken from the
left, the highest wire first, and `operator_onEachWire` puts them together.
-/

namespace CircuitSynthesis

open Matrix

/-- The Kronecker product of matrices on one wire, taken from the left. -/
def kronFold {R : Type} [Scalar R] : List (Matrix2 R) → (d : ℕ) × Dense (Amplitude R) d d
  | [] => ⟨1, .identity⟩
  | u :: us => us.foldl (fun M v => ⟨M.1 * 2, M.2.kron v.toDense⟩) ⟨2, u.toDense⟩

/-- The circuit on `n` wires that applies its matrix to each of the listed wires. -/
def Circuit.onEachWire {R : Type} [Zero R] {n : ℕ} (name : String) (u : Fin n → Matrix2 R) (order : List (Fin n)) :
    Except BuildError (Circuit R) :=
  order.foldlM (fun c w => c.unitary (u w).entries.toArray w) (.empty name n)

/-- The operator that applies to every wire its own matrix. -/
noncomputable def tensorOperator {n : ℕ} (u : Fin n → Matrix2 ℝ) : Matrix (Fin (2 ^ n)) (Fin (2 ^ n)) ℂ :=
  fun i j => ∏ w, (u w).toMatrix (i.val.testBit w) (j.val.testBit w)

variable {n : ℕ} {u : Fin n → Matrix2 ℝ}

section Kronecker

/-- The dense form of a one-wire matrix has its entries, by the bits of the indices. -/
lemma toMatrix_toDense_apply (v : Matrix2 ℝ) (x y : Fin 2) :
    v.toDense.toMatrix x y = v.toMatrix (x.val.testBit 0) (y.val.testBit 0) := by
  rw [Matrix2.toDense, Dense.toMatrix_ofFn, Matrix.of_apply]
  fin_cases x <;> fin_cases y <;> rfl

/-- An index of a Kronecker product is a quotient for the left factor and a remainder for the right one. -/
lemma toMatrix_kron_apply {k m : ℕ} (M : Dense (Amplitude ℝ) m m) (N : Dense (Amplitude ℝ) k k) (i j : Fin (m * k)) :
    (M.kron N).toMatrix i j = M.toMatrix i.divNat j.divNat * N.toMatrix i.modNat j.modNat := by
  rw [Dense.kron, Dense.toMatrix_ofFn, Matrix.of_apply, Amplitude.toComplex_mul]
  rfl

/-- Bit zero of an index is its remainder, and the other bits are those of its quotient. -/
lemma prod_entries_succ (u : Fin (n + 1) → Matrix2 ℝ) (i j : ℕ) :
    ∏ w, (u w).toMatrix (i.testBit w) (j.testBit w) =
      (∏ w : Fin n, (u w.succ).toMatrix ((i / 2).testBit w) ((j / 2).testBit w)) *
        (u 0).toMatrix ((i % 2).testBit 0) ((j % 2).testBit 0) := by
  have hlow (i : ℕ) : (i % 2).testBit 0 = i.testBit 0 := by
    rw [Nat.testBit_zero, Nat.testBit_zero, Nat.mod_mod]
  rw [Fin.prod_univ_succ, mul_comm]
  simp only [hlow, Fin.val_succ, Fin.val_zero, Nat.testBit_succ]

/-- The right factor of a Kronecker product with a matrix on one wire is the matrix of wire zero. -/
lemma toMatrix_kron_toDense {M : Dense (Amplitude ℝ) (2 ^ n) (2 ^ n)} {u : Fin (n + 1) → Matrix2 ℝ}
    (hM : M.toMatrix = tensorOperator fun w => u w.succ) : (M.kron (u 0).toDense).toMatrix = tensorOperator u := by
  ext i j
  calc (M.kron (u 0).toDense).toMatrix i j
      = M.toMatrix i.divNat j.divNat * (u 0).toDense.toMatrix i.modNat j.modNat := toMatrix_kron_apply M _ i j
    _ = tensorOperator (fun w => u w.succ) i.divNat j.divNat *
          (u 0).toMatrix (i.modNat.val.testBit 0) (j.modNat.val.testBit 0) := by rw [hM, toMatrix_toDense_apply]
    _ = tensorOperator u i j := (prod_entries_succ u i j).symm

/-- One more matrix at the end of the list is one more factor on the right. -/
lemma kronFold_append_singleton {us : List (Matrix2 ℝ)} (hus : us ≠ []) (v : Matrix2 ℝ) :
    kronFold (us ++ [v]) = ⟨(kronFold us).1 * 2, (kronFold us).2.kron v.toDense⟩ := by
  cases us with
  | nil => exact absurd rfl hus
  | cons u us => rw [List.cons_append, kronFold, List.foldl_append, List.foldl_cons, List.foldl_nil, ← kronFold]

/-- The Kronecker product of the matrices of all wires, from the highest wire down, applies to every wire its own matrix. -/
theorem kronFold_ofFn (u : Fin n → Matrix2 ℝ) : ∃ M : Dense (Amplitude ℝ) (2 ^ n) (2 ^ n),
    kronFold (List.ofFn u).reverse = ⟨2 ^ n, M⟩ ∧ M.toMatrix = tensorOperator u := by
  induction n with
  | zero =>
    refine ⟨.identity, rfl, ?_⟩
    ext i j
    obtain rfl : i = j := Subsingleton.elim (α := Fin 1) i j
    rw [Dense.toMatrix_identity, one_apply_eq, tensorOperator, Fin.prod_univ_zero]
  | succ n ih =>
    rw [List.ofFn_succ, List.reverse_cons]
    cases n with
    | zero =>
      -- the product of one matrix is that matrix, with no factor to its left
      refine ⟨(u 0).toDense, by rw [List.ofFn_zero]; rfl, ?_⟩
      ext i j
      rw [tensorOperator, Fin.prod_univ_one]
      exact toMatrix_toDense_apply (u 0) i j
    | succ n =>
      obtain ⟨M, hfold, hmatrix⟩ := ih fun w => u w.succ
      have hne : (List.ofFn fun w : Fin (n + 1) => u w.succ).reverse ≠ [] := by simp
      refine ⟨M.kron (u 0).toDense, ?_, toMatrix_kron_toDense hmatrix⟩
      rw [kronFold_append_singleton hne, hfold]
      rfl

end Kronecker

section Gates

/-- Whether two indices agree on all wires outside a list. -/
def AgreeOutside (ws : List (Fin n)) (i j : ℕ) : Prop := ∀ w : Fin n, w ∉ ws → i.testBit w = j.testBit w

instance (ws : List (Fin n)) (i j : ℕ) : Decidable (AgreeOutside ws i j) :=
  inferInstanceAs (Decidable (∀ w : Fin n, w ∉ ws → i.testBit w = j.testBit w))

/-- Indices agree outside no wires only if they are equal. -/
lemma agreeOutside_nil {i j : Fin (2 ^ n)} : AgreeOutside ([] : List (Fin n)) i j ↔ i = j := by
  constructor
  · intro h
    refine Fin.ext (Nat.eq_of_testBit_eq fun q => ?_)
    rcases lt_or_ge q n with hq | hq
    · exact h ⟨q, hq⟩ List.not_mem_nil
    · have hle := Nat.pow_le_pow_right Nat.two_pos hq
      rw [Nat.testBit_lt_two_pow (i.isLt.trans_le hle), Nat.testBit_lt_two_pow (j.isLt.trans_le hle)]
  · rintro rfl w -
    rfl

/-- Replacing the bit of one more wire leaves indices that agree if it is replaced by the right one. -/
lemma agreeOutside_setWire {ws : List (Fin n)} {w : Fin n} (hw : w ∉ ws) {b : Bool} {i j : ℕ} :
    AgreeOutside ws (setWire w b i) j ↔ b = j.testBit w ∧ AgreeOutside (ws ++ [w]) i j := by
  simp only [AgreeOutside, testBit_setWire, Fin.val_inj, List.mem_append, List.mem_singleton, not_or]
  constructor
  · intro h
    refine ⟨by simpa using h w hw, fun v hv => ?_⟩
    simpa only [if_neg hv.2] using h v hv.1
  · rintro ⟨rfl, h⟩ v hv
    split
    case isTrue heq => rw [heq]
    case isFalse hne => exact h v ⟨hv, hne⟩

/-- The gates that apply its matrix to each of the listed wires. -/
def gatesOnWires {R : Type} (u : Fin n → Matrix2 R) (order : List (Fin n)) : List (ElementaryGate R) :=
  order.map fun w : Fin n => .unitary w (u w)

/-- The gates that act on one wire each are placed. -/
lemma isPlaced_gatesOnWires {R : Type} (u : Fin n → Matrix2 R) (order : List (Fin n)) :
    ∀ g ∈ gatesOnWires u order, g.IsPlaced n := by
  intro g hg
  obtain ⟨w, -, rfl⟩ := List.mem_map.1 hg
  exact ElementaryGate.isPlaced_unitary.2 w.isLt

/-- Gates on distinct wires relate the indices that agree on all other wires, through the entries that their bits select. -/
lemma gatesOperator_gatesOnWires {order : List (Fin n)} (hnodup : order.Nodup) (i j : Fin (2 ^ n)) :
    gatesOperator n (gatesOnWires u order) i j =
      if AgreeOutside order i j
        then (order.map fun w : Fin n => (u w).toMatrix (i.val.testBit w) (j.val.testBit w)).prod else 0 := by
  induction order using List.reverseRecOn generalizing i with
  | nil => simp only [gatesOnWires, List.map_nil, gatesOperator_nil, agreeOutside_nil, List.prod_nil, Matrix.one_apply]
  | append_singleton ws w ih =>
    obtain ⟨hws, -, hdisjoint⟩ := List.nodup_append.1 hnodup
    have hw : w ∉ ws := fun hmem => hdisjoint w hmem w (List.mem_singleton_self w) rfl
    have hcolumn : gatesOperator n (gatesOnWires u (ws ++ [w])) i j =
        (wireOperator n w (fun _ => (u w).toMatrix) *ᵥ fun k => gatesOperator n (gatesOnWires u ws) k j) i := by
      rw [gatesOnWires, List.map_append, gatesOperator_append, List.map_singleton, gatesOperator_singleton]
      rfl
    -- of the two values of the last wire only that of the column is left
    have hterm (b : Bool) : gatesOperator n (gatesOnWires u ws) (setWireFin w.isLt b i) j =
        if b = j.val.testBit w ∧ AgreeOutside (ws ++ [w]) i j
          then (ws.map fun v : Fin n => (u v).toMatrix (i.val.testBit v) (j.val.testBit v)).prod else 0 := by
      have hprod : (ws.map fun v : Fin n => (u v).toMatrix ((setWire w b i).testBit v) (j.val.testBit v)) =
          ws.map fun v : Fin n => (u v).toMatrix (i.val.testBit v) (j.val.testBit v) := by
        refine List.map_congr_left fun v hv => ?_
        have hne : (v : ℕ) ≠ w := Fin.val_ne_of_ne fun h => hw (h ▸ hv)
        rw [testBit_setWire, if_neg hne]
      rw [ih hws, setWireFin, hprod]
      simp only [agreeOutside_setWire hw]
    rw [hcolumn, wireOperator_mulVec w.isLt, hterm, hterm, List.map_append, List.prod_append, List.map_singleton,
      List.prod_singleton]
    by_cases hagree : AgreeOutside (ws ++ [w]) i j
    · cases hbit : j.val.testBit w <;> simp [hagree, mul_comm]
    · simp [hagree]

/-- Gates on all wires, in any order, apply to every wire its own matrix. -/
theorem gatesOperator_perm {order : List (Fin n)} (horder : order.Perm (List.finRange n)) :
    gatesOperator n (gatesOnWires u order) = tensorOperator u := by
  have hagree (i j : ℕ) : AgreeOutside order i j := fun w hw => absurd (horder.mem_iff.2 (List.mem_finRange w)) hw
  ext i j
  rw [gatesOperator_gatesOnWires (horder.nodup_iff.2 (List.nodup_finRange n)), if_pos (hagree i j), (horder.map _).prod_eq,
    tensorOperator, Fin.prod_univ_def]

end Gates

section Circuits

variable {order : List (Fin n)}

/-- On any list of wires the circuit is built, with an instruction for each of them. -/
lemma Circuit.onEachWire_eq_ok {R : Type} [Scalar R] (name : String) (u : Fin n → Matrix2 R) (order : List (Fin n)) :
    Circuit.onEachWire name u order = .ok (Program.circuit ⟨n, gatesOnWires u order, 0, .general⟩ name) := by
  have hfold := ElementaryGate.foldlM_addTo (Circuit.empty name n) (isPlaced_gatesOnWires u order)
  rw [gatesOnWires, List.foldlM_map] at hfold
  refine hfold.trans ?_
  simp [Circuit.empty, Program.circuit, gatesOnWires]

/-- The circuit that applies to each of at most twelve wires its own matrix, in any order of the wires, is built, and the
operator found for it is the Kronecker product of the matrices, taken from the left, that of the highest wire first. -/
theorem Circuit.operator_onEachWire (hn : n ≤ maxDenseQubits) (u : Fin n → Matrix2 ℝ) (horder : order.Perm (List.finRange n))
    (name : String) :
    ∃ c U, onEachWire name u order = .ok c ∧ c.operator = .ok U ∧ kronFold (List.ofFn u).reverse = ⟨2 ^ c.width, U⟩ := by
  obtain ⟨U, hU, hmatrix⟩ := Program.operator_circuit (p := ⟨n, gatesOnWires u order, 0, .general⟩)
    (isPlaced_gatesOnWires u order) hn name
  obtain ⟨M, hfold, hM⟩ := kronFold_ofFn u
  refine ⟨_, U, onEachWire_eq_ok name u order, hU, ?_⟩
  have hoperator : U.toMatrix = M.toMatrix := by
    rw [hmatrix, hM, ← gatesOperator_perm horder, Program.operator_eq_phasedOperator, phasedOperator_mk]
    simp
  rw [hfold, Dense.toMatrix_injective hoperator]
  rfl

/-- Two matrices that neither a transposed index nor a reversed order of the wires keeps. -/
noncomputable def lopsidedPair : Fin 2 → Matrix2 ℝ := ![.ofReals 1 2 0 1, .ofReals 0 1 2 0]

/-- Two different matrices, pushed in descending order of their wires. -/
theorem Circuit.operator_onEachWire_lopsidedPair :
    2 ≤ maxDenseQubits ∧ List.Perm [1, 0] (List.finRange 2) ∧
    ∃ c U, onEachWire "pair" lopsidedPair [1, 0] = .ok c ∧ c.operator = .ok U ∧
      kronFold [.ofReals 0 1 2 0, .ofReals 1 2 0 1] = ⟨2 ^ c.width, U⟩ :=
  ⟨by decide, by decide, operator_onEachWire (by decide) lopsidedPair (by decide) "pair"⟩

end Circuits

end CircuitSynthesis
