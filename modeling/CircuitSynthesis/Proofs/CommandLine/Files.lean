import Mathlib
import CircuitSynthesis.CommandLine.Files
import CircuitSynthesis.CommandLine.Directory
import CircuitSynthesis.Proofs.Diagonal
import CircuitSynthesis.Proofs.Exact.Dense

/-!
# Operators in files

The rows of a file are the rows of the operator, from the top, and each row lists its entries from the left. By
`operatorOfRows_eq_ok_iff` an operator is read if and only if the file holds the rows of one whose dimension is a power of two.
-/

namespace CircuitSynthesis

section Rows

variable {α β : Type} {m n : ℕ}

/-- A list is converted if and only if each of its elements is. -/
lemma mapM_eq_some_iff {f : α → Option β} {g : β → α} (hf : ∀ a b, f a = some b ↔ a = g b) {xs : List α} {ys : List β} :
    xs.mapM f = some ys ↔ xs = ys.map g := by
  induction xs generalizing ys with
  | nil =>
    rw [List.mapM_nil, eq_comm (a := []), List.map_eq_nil_iff, eq_comm (a := ys)]
    exact Option.some_inj
  | cons x xs ih =>
    rw [List.mapM_cons]
    simp only [Option.bind_eq_bind, Option.bind_eq_some_iff, hf, ih, Option.pure_def, Option.some_inj]
    constructor
    · rintro ⟨y, rfl, ys, rfl, rfl⟩
      rfl
    · intro h
      cases ys with
      | nil => cases h
      | cons y ys =>
        obtain ⟨hx, hxs⟩ := List.cons.inj h
        exact ⟨y, hx, ys, hxs, rfl⟩

/-- Rows make up a matrix if and only if they are its rows. -/
lemma Dense.ofRows?_eq_some_iff {M : Dense α m n} {rows : List (List α)} : ofRows? m n rows = some M ↔ rows = M.toRows := by
  have hrow (row : List α) (v : Vector α n) :
      (if h : row.toArray.size = n then some (⟨row.toArray, h⟩ : Vector α n) else none) = some v ↔ row = v.toList := by
    constructor
    · intro h
      split at h
      case isTrue => rw [← Option.some.inj h, Vector.toList_mk]
      case isFalse => cases h
    · rintro rfl
      simp [← Vector.toArray_toList]
  rw [ofRows?]
  simp only [Option.bind_eq_bind, Option.bind_eq_some_iff, mapM_eq_some_iff hrow]
  constructor
  · rintro ⟨vs, rfl, h⟩
    split at h
    case isTrue => rw [← Option.some.inj h, toRows, Vector.toList_mk]
    case isFalse => cases h
  · rintro rfl
    obtain ⟨⟨rows, hsize⟩⟩ := M
    exact ⟨rows.toList, rfl, dif_pos hsize⟩

/-- A matrix has as many rows as its first dimension says. -/
@[simp] lemma Dense.length_toRows (M : Dense α m n) : M.toRows.length = m := by
  simp [toRows]

/-- Each row is as long as the second dimension says. -/
lemma Dense.length_of_mem_toRows {M : Dense α m n} {row : List α} (h : row ∈ M.toRows) : row.length = n := by
  obtain ⟨v, -, rfl⟩ := List.mem_map.1 h
  exact v.length_toList

end Rows

namespace CommandLine

section Rows

variable {R : Type} {rows : List (List (Amplitude R))}

/-- An operator is read if and only if it has the given rows and its dimension is a power of two. -/
lemma operatorOfRows_eq_ok_iff {u : Dense (Amplitude R) rows.length rows.length} :
    operatorOfRows rows = .ok u ↔ isPowerOfTwo rows.length = true ∧ rows = u.toRows := by
  rw [operatorOfRows]
  split
  case isFalse hpow => exact iff_of_false nofun fun h => hpow h.1
  case isTrue hpow =>
    rw [and_iff_right hpow, ← Dense.ofRows?_eq_some_iff]
    split
    case h_1 row index hfound =>
      have hlength := List.find?_some hfound
      dsimp only at hlength
      have hmem : row ∈ rows := (List.mem_zipIdx' (List.mem_of_find?_eq_some hfound)).2 ▸ List.getElem_mem _
      refine iff_of_false nofun fun h => ?_
      rw [Dense.ofRows?_eq_some_iff] at h
      rw [bne_iff_ne] at hlength
      exact hlength (Dense.length_of_mem_toRows (h ▸ hmem))
    case h_2 =>
      cases Dense.ofRows? rows.length rows.length rows with
      | none => exact iff_of_false nofun nofun
      | some v => exact (Except.ok.injEq v u).to_iff.trans Option.some_inj.symm

end Rows

/-- The rows of an operator, from the top, with the entries of each from the left. -/
def rowsOfOperator {n : ℕ} (M : Matrix (Fin (2 ^ n)) (Fin (2 ^ n)) ℂ) : List (List (Amplitude ℝ)) :=
  List.ofFn fun i => List.ofFn fun j => Amplitude.ofComplex (M i j)

/-- The rows that a matrix is written with are those that a file holds for its operator. -/
lemma toRows_ofMatrix {n : ℕ} (M : Matrix (Fin (2 ^ n)) (Fin (2 ^ n)) ℂ) : (Dense.ofMatrix M).toRows = rowsOfOperator M := by
  rw [Dense.toRows, Dense.ofMatrix, Dense.ofFn, Vector.toList_ofFn, List.map_ofFn, rowsOfOperator]
  exact congrArg List.ofFn (funext fun i => Vector.toList_ofFn)

/-- The rows determine the operator. -/
lemma eq_of_rowsOfOperator_eq {n n' : ℕ} {M : Matrix (Fin (2 ^ n)) (Fin (2 ^ n)) ℂ} {M' : Matrix (Fin (2 ^ n')) (Fin (2 ^ n')) ℂ}
    (h : rowsOfOperator M = rowsOfOperator M') :
    (⟨n, M⟩ : (n : ℕ) × Matrix (Fin (2 ^ n)) (Fin (2 ^ n)) ℂ) = ⟨n', M'⟩ := by
  have hlength := congrArg List.length h
  rw [rowsOfOperator, rowsOfOperator, List.length_ofFn, List.length_ofFn] at hlength
  obtain rfl : n = n' := Nat.pow_right_injective le_rfl hlength
  have hentry (i j : Fin (2 ^ n)) : M i j = M' i j :=
    congrArg Amplitude.toComplex (congrFun (List.ofFn_injective (congrFun (List.ofFn_injective h) i)) j)
  rw [Matrix.ext hentry]

/-- Whether a file holds an operator on `n` qubits. -/
def FileView.HoldsOperator [DecimalText ℝ] (files : FileView) (path : String) {n : ℕ}
    (M : Matrix (Fin (2 ^ n)) (Fin (2 ^ n)) ℂ) : Prop :=
  ∃ text, files.read path = .ok text ∧ rowsOfText? text = some (rowsOfOperator M)

variable {rows : List (List (Amplitude ℝ))} {x : (d : ℕ) × Dense (Amplitude ℝ) d d}

/-- What is read is an operator on a number of qubits. -/
lemma exists_operatorOfRows_iff : (∃ u, operatorOfRows rows = .ok u ∧ x = ⟨rows.length, u⟩) ↔
    ∃ (n : ℕ) (M : Matrix (Fin (2 ^ n)) (Fin (2 ^ n)) ℂ), rows = rowsOfOperator M ∧ x = ⟨2 ^ n, .ofMatrix M⟩ := by
  have hlog (d : ℕ) (u : Dense (Amplitude ℝ) d d) (h : isPowerOfTwo d = true) :
      ∃ (n : ℕ) (M : Matrix (Fin (2 ^ n)) (Fin (2 ^ n)) ℂ),
        (⟨d, u⟩ : (d : ℕ) × Dense (Amplitude ℝ) d d) = ⟨2 ^ n, .ofMatrix M⟩ := by
    obtain ⟨n, rfl⟩ := isPowerOfTwo_iff.1 h
    exact ⟨n, u.toMatrix, by rw [u.ofMatrix_toMatrix]⟩
  constructor
  · rintro ⟨u, hu, rfl⟩
    obtain ⟨hpow, hrows⟩ := operatorOfRows_eq_ok_iff.1 hu
    obtain ⟨n, M, hx⟩ := hlog _ u hpow
    have hread := congrArg (fun x : (d : ℕ) × Dense (Amplitude ℝ) d d => x.2.toRows) hx
    exact ⟨n, M, hrows.trans (hread.trans (toRows_ofMatrix M)), hx⟩
  · rintro ⟨n, M, hrows, rfl⟩
    have hlength : rows.length = 2 ^ n := by rw [hrows, ← toRows_ofMatrix, Dense.length_toRows]
    obtain ⟨u, hu⟩ : ∃ u : Dense (Amplitude ℝ) rows.length rows.length,
        (⟨2 ^ n, .ofMatrix M⟩ : (d : ℕ) × Dense (Amplitude ℝ) d d) = ⟨rows.length, u⟩ := by
      rw [hlength]
      exact ⟨_, rfl⟩
    have hread := congrArg (fun x : (d : ℕ) × Dense (Amplitude ℝ) d d => x.2.toRows) hu
    refine ⟨u, operatorOfRows_eq_ok_iff.2 ⟨isPowerOfTwo_iff.2 ⟨n, hlength⟩, ?_⟩, hu⟩
    exact hrows.trans ((toRows_ofMatrix M).symm.trans hread)

end CommandLine

end CircuitSynthesis
