import Mathlib
import CircuitSynthesis.Compiler
import CircuitSynthesis.TwoQubit.StandardKernel
import CircuitSynthesis.Proofs.Householder.Splitting
import CircuitSynthesis.Proofs.StatePreparation

/-!
# The operator of a peeled matrix

A phase flip between a preparation and its inverse is a reflection (`emitReflection_gives`); the phases of the preparation
cancel. Peeling a block leaves its diagonal to the right of an operator that is the corner of some matrix on the basis
states of the block, and this matrix times the diagonal is the block: the invariant of `peel_gives`, which an induction
over the frames carries from the innermost block outwards. The main statement is `Compiler.compile_general_operator`.
-/

namespace CircuitSynthesis

open Matrix
open Complex (I exp)
open Householder (Reduced reflections reflections_nil reflections_cons reflections_append)

section TopIndex

variable {depth active qubits : ℕ}

/-- An index of a block, with all higher wires reading one, is an index of the register. -/
lemma top_add_lt (h : depth + active = qubits) {x : ℕ} (hx : x < 2 ^ active) : 2 ^ active * (2 ^ depth - 1) + x < 2 ^ qubits := by
  have hpos := Nat.two_pow_pos depth
  calc 2 ^ active * (2 ^ depth - 1) + x < 2 ^ active * (2 ^ depth - 1) + 2 ^ active := Nat.add_lt_add_left hx _
    _ = 2 ^ active * 2 ^ depth := by rw [← Nat.mul_succ, Nat.succ_eq_add_one, Nat.sub_add_cancel hpos]
    _ = 2 ^ qubits := by rw [← Nat.pow_add, Nat.add_comm, h]

/-- The basis states of `qubits` wires whose top `depth` wires read one, by what the other wires read. -/
def topIndex (h : depth + active = qubits) (x : Fin (2 ^ active)) : Fin (2 ^ qubits) :=
  ⟨2 ^ active * (2 ^ depth - 1) + x.val, top_add_lt h x.isLt⟩

/-- Different indices of a block are different indices of the register. -/
lemma topIndex_injective (h : depth + active = qubits) : Function.Injective (topIndex h) := by
  intro x y hxy
  have hval := congrArg Fin.val hxy
  exact Fin.ext (Nat.add_left_cancel hval)

/-- Without wires above it a block is the whole register. -/
lemma topIndex_zero (h : 0 + active = active) : topIndex h = id := by
  funext x
  exact Fin.ext (by simp [topIndex])

/-- The indices of the second half of a block. -/
def secondHalf (x : Fin (2 ^ active)) : Fin (2 ^ (active + 1)) :=
  ⟨2 ^ active + x.val, by rw [Nat.pow_succ]; omega⟩

/-- Different indices of a half are different indices of the block. -/
lemma secondHalf_injective : Function.Injective (@secondHalf active) := by
  intro x y hxy
  have hval := congrArg Fin.val hxy
  exact Fin.ext (Nat.add_left_cancel hval)

/-- An index is in the first half of a block or in the second. -/
lemma lt_or_eq_secondHalf (i : Fin (2 ^ (active + 1))) : i.val < 2 ^ active ∨ ∃ x, i = secondHalf x := by
  rcases lt_or_ge i.val (2 ^ active) with hi | hi
  · exact .inl hi
  · have hlt := i.isLt
    have hsucc : 2 ^ (active + 1) = 2 ^ active * 2 := Nat.pow_succ _ _
    refine .inr ⟨⟨i.val - 2 ^ active, by omega⟩, Fin.ext ?_⟩
    exact (Nat.add_sub_cancel' hi).symm

/-- An index in the first half is none in the second. -/
lemma ne_secondHalf {i : Fin (2 ^ (active + 1))} (hi : i.val < 2 ^ active) (x : Fin (2 ^ active)) : i ≠ secondHalf x := by
  intro h
  rw [h, secondHalf] at hi
  simp at hi

/-- In the second half of a block the highest of its wires reads one as well. -/
lemma topIndex_comp_secondHalf (h : depth + (active + 1) = qubits) (h' : depth + 1 + active = qubits) :
    topIndex h ∘ secondHalf = topIndex h' := by
  funext x
  have hpos := Nat.two_pow_pos depth
  have hsucc : 2 * (2 ^ depth - 1) + 1 = 2 ^ (depth + 1) - 1 := by
    rw [Nat.pow_succ]
    omega
  refine Fin.ext ?_
  simp only [Function.comp_apply, topIndex, secondHalf]
  rw [← hsucc]
  ring

/-- Amplitudes placed below wires that read one. -/
lemma placed_eq_inclusion (h : depth + active = qubits) (e : ℕ → ℂ) :
    placed qubits 0 active (2 ^ active * (2 ^ depth - 1)) e =
      inclusion (topIndex h) *ᵥ fun x : Fin (2 ^ active) => e x := by
  funext i
  have hpos := Nat.two_pow_pos active
  rw [placed, clearField_lowest, field_lowest]
  by_cases hi : ∃ x, i = topIndex h x
  · obtain ⟨x, rfl⟩ := hi
    rw [inclusion_mulVec_apply (topIndex_injective h)]
    have hdiv : (topIndex h x).val / 2 ^ active = 2 ^ depth - 1 := by
      rw [topIndex, Nat.mul_add_div hpos, Nat.div_eq_of_lt x.isLt, Nat.add_zero]
    have hmod : (topIndex h x).val % 2 ^ active = x := by
      rw [topIndex, Nat.mul_add_mod, Nat.mod_eq_of_lt x.isLt]
    rw [hdiv, hmod, if_pos rfl]
  · rw [not_exists] at hi
    rw [inclusion_mulVec_of_forall_ne hi, if_neg]
    intro htop
    refine hi ⟨i.val % 2 ^ active, Nat.mod_lt _ hpos⟩ (Fin.ext ?_)
    calc i.val = 2 ^ active * (i.val / 2 ^ active) + i.val % 2 ^ active := (Nat.div_add_mod _ _).symm
      _ = 2 ^ active * (2 ^ depth - 1) + i.val % 2 ^ active := by rw [htop]

end TopIndex

section Emission

variable {n : ℕ} {ι : Type} [Fintype ι] [DecidableEq ι]

/-- Conjugating a reflection by a unitary operator reflects along the image of its vector. -/
lemma mul_reflection_mul_conjTranspose {W : Matrix ι ι ℂ} (hW : W ∈ unitaryGroup ι ℂ) (u : ι → ℂ) :
    W * reflection u * Wᴴ = reflection (W *ᵥ u) := by
  rw [reflection, Matrix.mul_sub, Matrix.mul_one, Matrix.sub_mul, Matrix.mul_smul, Matrix.smul_mul, mul_vecMulVec,
    vecMulVec_mul, ← star_mulVec, ← star_eq_conjTranspose, mem_unitaryGroup_iff.1 hW, reflection]

/-- The phase flip of a basis state is a reflection. -/
lemma reflection_basisState (n s : ℕ) :
    reflection (basisState n s) = diagonal fun i : Fin (2 ^ n) => if i.val = s then -1 else 1 := by
  ext i j
  rw [reflection, Matrix.sub_apply, Matrix.smul_apply, vecMulVec_apply, Pi.star_apply, one_apply, diagonal_apply]
  by_cases hij : i = j
  · subst hij
    rw [if_pos rfl, if_pos rfl, basisState]
    split <;> norm_num
  · rw [if_neg hij, if_neg hij, basisState, basisState]
    have hne : ¬ (i.val = s ∧ j.val = s) := fun h => hij (Fin.ext (h.1.trans h.2.symm))
    split <;> split <;> simp_all

/-- The phases that flip one basis state. -/
noncomputable def flipPhases (n s : ℕ) : List (Amplitude ℝ) := (List.range (2 ^ n)).map fun x => if x = s then ⟨-1, 0⟩ else 1

/-- The phases of a flip are minus one and one. -/
lemma toComplex_flipPhase (x s : ℕ) :
    (if x = s then ⟨-1, 0⟩ else 1 : Amplitude ℝ).toComplex = if x = s then -1 else 1 := by
  split
  · exact Complex.ext rfl neg_zero.symm
  · rfl

/-- The synthesis of these phases reflects along the basis state. -/
lemma flip_gives (n s : ℕ) :
    ∃ (gates : List (ElementaryGate ℝ)) (phase : ℝ), (synthesizeDiagonal (flipPhases n s) 0 (0 : ℝ)).Gives (.ok (gates, phase)) ∧
      (∀ g ∈ gates, g.Fits n) ∧ exp (phase * I) • gatesOperator n gates = reflection (basisState n s) := by
  have hlen : (flipPhases n s).length = 2 ^ n := by rw [flipPhases, List.length_map, List.length_range]
  have hunit : ∀ z ∈ flipPhases n s, ‖z.toComplex‖ = 1 := by
    intro z hz
    obtain ⟨x, -, rfl⟩ := List.mem_map.1 hz
    rw [toComplex_flipPhase]
    split <;> norm_num
  obtain ⟨gates, phase, hgives, hsteps, hop⟩ := synthesizeDiagonal_of_unit (flipPhases n s) hlen hunit 0
  refine ⟨gates, phase, hgives, fun g hg => ?_, ?_⟩
  · have hfits := (hsteps g hg).fits
    rwa [Nat.zero_add] at hfits
  · rw [hop n (Nat.zero_add n).le, reflection_basisState]
    congr 1
    funext i
    have hi : i.val < (flipPhases n s).length := i.isLt.trans_eq hlen.symm
    rw [field_lowest, Nat.mod_eq_of_lt i.isLt, entry, List.getD_eq_getElem _ _ hi]
    simp only [flipPhases, List.getElem_map, List.getElem_range, toComplex_flipPhase]

variable {depth active qubits : ℕ} {c : Compiler ℝ}

/-- The gates of a reflection are the reflection along the vector, placed below wires that read one. -/
lemma emitReflection_gives (hcutoff : c.settings.rotationCutoff = 0) (h : depth + active = qubits)
    (vector : List (Amplitude ℝ)) (hlen : vector.length = 2 ^ active) (hunit : ‖amplitudes active (entry vector)‖ = 1) :
    ∃ (gates : List (ElementaryGate ℝ)) (phase : ℝ), (c.emitReflection vector depth qubits).Gives (.ok (gates, phase)) ∧
      (∀ g ∈ gates, g.Fits qubits) ∧
      exp (phase * I) • gatesOperator qubits gates =
        corner (topIndex h) (reflection fun x : Fin (2 ^ active) => entry vector x) := by
  have hflipped : (2 ^ depth - 1) <<< (qubits - depth) = 2 ^ active * (2 ^ depth - 1) := by
    rw [← h, Nat.add_sub_cancel_left, Nat.shiftLeft_eq, Nat.mul_comm]
  obtain ⟨prepare, _, hprepare, hsteps, hstate⟩ := synthesizeState_of_unit vector hlen hunit 0
  obtain ⟨flip, phase, hflip, hfits', hop⟩ := flip_gives qubits (2 ^ active * (2 ^ depth - 1))
  have hfits : ∀ g ∈ prepare, g.Fits qubits := fun g hg =>
    ((hsteps g hg).mono (fun _ h => h) le_rfl (show 0 + active ≤ qubits by omega)).fits
  have hunitary := gatesOperator_mem_unitary hfits fun g hg => (hsteps g hg).isUnitary
  refine ⟨prepare.reverse.map ElementaryGate.inverse ++ flip ++ prepare, phase, ?_, ?_, ?_⟩
  · rw [Compiler.emitReflection, hcutoff, hflipped]
    exact hprepare.bind (hflip.bind (Synthesis.gives_pure _))
  · intro g hg
    rcases List.mem_append.1 hg with hg | hg
    · rcases List.mem_append.1 hg with hg | hg
      · obtain ⟨g', hg', rfl⟩ := List.mem_map.1 hg
        exact ElementaryGate.fits_inverse (hfits g' (List.mem_reverse.1 hg'))
      · exact hfits' g hg
    · exact hfits g hg
  · -- the flip is the reflection along its basis state, which the preparation takes to the vector
    have hzero : ∀ q, 0 ≤ q → q < 0 + active → (2 ^ active * (2 ^ depth - 1)).testBit q = false := by
      intro q _ hq
      have hlt : ¬ active ≤ q := by omega
      rw [Nat.testBit_two_pow_mul, decide_eq_false hlt, Bool.false_and]
    rw [gatesOperator_append, gatesOperator_append, gatesOperator_inverse hfits, ← Matrix.mul_assoc, ← Matrix.smul_mul,
      ← Matrix.mul_smul, hop, mul_reflection_mul_conjTranspose hunitary, corner_reflection, ← placed_eq_inclusion h,
      ← hstate qubits (by omega) _ hzero, reflection_smul (Complex.norm_exp_ofReal_mul_I _)]

/-- The vector of amplitudes of a list. -/
noncomputable def listVector {N : ℕ} (v : List (Amplitude ℝ)) (x : Fin N) : ℂ := entry v x

/-- Reflections emitted in turn multiply what is there from the left, the last of the list coming out leftmost. -/
lemma emitReflections_gives (hcutoff : c.settings.rotationCutoff = 0) (h : depth + active = qubits)
    (vectors : List (List (Amplitude ℝ))) (hlen : ∀ v ∈ vectors, v.length = 2 ^ active)
    (hunit : ∀ v ∈ vectors, ‖amplitudes active (entry v)‖ = 1) (gates : List (ElementaryGate ℝ)) (phase : ℝ) :
    ∃ (gates' : List (ElementaryGate ℝ)) (phase' : ℝ),
      (c.emitReflections depth qubits gates phase vectors).Gives (.ok (gates', phase')) ∧
      exp (phase' * I) • gatesOperator qubits gates' =
        corner (topIndex h) (reflections (vectors.map listVector).reverse) * (exp (phase * I) • gatesOperator qubits gates) := by
  induction vectors generalizing gates phase with
  | nil => exact ⟨gates, phase, Synthesis.gives_pure _, by rw [List.map_nil, List.reverse_nil, reflections_nil, corner_one, Matrix.one_mul]⟩
  | cons vector earlier ih =>
    rw [List.forall_mem_cons] at hlen hunit
    obtain ⟨gates₁, phase₁, hgives₁, -, hop₁⟩ := emitReflection_gives hcutoff h vector hlen.1 hunit.1
    obtain ⟨gates₂, phase₂, hgives₂, hop₂⟩ := ih hlen.2 hunit.2 (gates ++ gates₁) (phase + phase₁)
    refine ⟨gates₂, phase₂, hgives₁.bind hgives₂, ?_⟩
    have hstep : exp ((phase + phase₁ : ℝ) * I) • gatesOperator qubits (gates ++ gates₁) =
        corner (topIndex h) (reflection (listVector vector)) * (exp (phase * I) • gatesOperator qubits gates) := by
      have hop₁' : corner (topIndex h) (reflection (listVector vector)) = exp (phase₁ * I) • gatesOperator qubits gates₁ := hop₁.symm
      rw [hop₁', gatesOperator_append, Matrix.smul_mul, Matrix.mul_smul, smul_smul,
        ← Complex.exp_ofReal_add_mul_I, add_comm phase]
    rw [hop₂, hstep, ← Matrix.mul_assoc, ← corner_mul (topIndex_injective h), List.map_cons, List.reverse_cons,
      reflections_append, reflections_cons, reflections_nil, Matrix.mul_one]

end Emission

section Halves

variable {active : ℕ} {W : Matrix (Fin (2 ^ (active + 1))) (Fin (2 ^ (active + 1))) ℂ}

/-- Once the first half of the columns is reduced, the second half of the indices keeps to itself. -/
lemma submatrix_secondHalf_mem_unitary (hW : Reduced W (2 ^ active)) :
    W.submatrix secondHalf secondHalf ∈ unitaryGroup (Fin (2 ^ active)) ℂ :=
  hW.submatrix_mem_unitary secondHalf_injective (fun x => Nat.le_add_right _ x.val) fun i hi =>
    (lt_or_eq_secondHalf i).resolve_left (not_lt.2 hi)

/-- The diagonal of the first half and what makes up the second half make up the whole. -/
lemma corner_secondHalf_mul_diagonal (hW : Reduced W (2 ^ active)) {X : Matrix (Fin (2 ^ active)) (Fin (2 ^ active)) ℂ}
    {d : Fin (2 ^ (active + 1)) → ℂ} (hfirst : ∀ i, i.val < 2 ^ active → d i = W i i)
    (hsecond : X * diagonal (fun x => d (secondHalf x)) = W.submatrix secondHalf secondHalf) :
    corner secondHalf X * diagonal d = W := by
  ext i j
  rw [mul_diagonal]
  rcases lt_or_eq_secondHalf j with hj | ⟨y, rfl⟩
  · rw [corner_apply_of_forall_ne (ne_secondHalf hj), hfirst j hj, one_apply]
    by_cases hij : i = j
    · rw [if_pos hij, one_mul, hij]
    · rw [if_neg hij, zero_mul, hW.column i j hj hij]
  · rw [corner_apply_picked secondHalf_injective]
    rcases lt_or_eq_secondHalf i with hi | ⟨x, rfl⟩
    · rw [inclusion_mulVec_of_forall_ne (ne_secondHalf hi), zero_mul, hW.row hi (ne_secondHalf hi y).symm]
    · have h := congrFun (congrFun hsecond x) y
      rw [mul_diagonal, submatrix_apply] at h
      rw [inclusion_mulVec_apply secondHalf_injective, h]

end Halves

section Peeling

open Householder (Reducer)

variable {qubits : ℕ} {c : Compiler ℝ}

/-- Whether the peeling of a block ignores nothing: the columns that it skips are zero below the diagonal, and the block
that ends it is diagonal. -/
def Compiler.PeelsExactly (c : Compiler ℝ) : (active : ℕ) → Dense (Amplitude ℝ) (2 ^ active) (2 ^ active) → Prop
  | 0, _ => True
  | active + 1, block =>
    if block.maxOffDiagonal < c.settings.diagonalTolerance then ∀ i j, i ≠ j → block.toMatrix i j = 0
    else
      Reducer.SkipsExactly (2 ^ active) (Reducer.ofDense block) ∧
        c.PeelsExactly active (Compiler.lowerBlock ((Reducer.steps (2 ^ active)).run (Reducer.ofDense block)).run.2.work)

/-- The diagonal of a stored matrix, entry by entry. -/
lemma entry_diagonal {N : ℕ} (M : Dense (Amplitude ℝ) N N) (x : Fin N) : entry M.diagonal x = M.toMatrix x x := by
  rw [entry, List.getD_eq_getElem _ _ (by simp), Dense.getElem_diagonal]
  rfl

/-- The lower block is the second half of the rows and columns. -/
lemma toMatrix_lowerBlock {active : ℕ} (work : Dense (Amplitude ℝ) (2 ^ (active + 1)) (2 ^ (active + 1))) :
    (Compiler.lowerBlock work).toMatrix = work.toMatrix.submatrix secondHalf secondHalf :=
  Dense.toMatrix_ofFn _

/-- The vector of a reflector, as a list, is its direction. -/
lemma listVector_toList {N : ℕ} (r : Householder.Reflector ℝ N) : listVector r.vector.toList = r.direction := by
  funext x
  rw [listVector, entry, List.getD_eq_getElem _ _ (by simp)]
  simp [Householder.Reflector.direction, Vector.get_eq_getElem]

/-- A unit vector has amplitudes of norm one. -/
lemma norm_amplitudes_eq_one {m : ℕ} {f : ℕ → ℂ} {u : Fin (2 ^ m) → ℂ} (hf : ∀ x : Fin (2 ^ m), f x = u x)
    (hu : star u ⬝ᵥ u = 1) : ‖amplitudes m f‖ = 1 := by
  have hsum : ((∑ x ∈ Finset.range (2 ^ m), ‖f x‖ ^ 2 : ℝ) : ℂ) = 1 := by
    rw [← hu, Finset.sum_range, Complex.ofReal_sum, dotProduct]
    refine Finset.sum_congr rfl fun x _ => ?_
    rw [Pi.star_apply, Complex.star_def, ← Complex.normSq_eq_conj_mul_self, Complex.normSq_eq_norm_sq, hf]
  rw [← pow_eq_one_iff_of_nonneg (norm_nonneg _) two_ne_zero, norm_amplitudes_sq]
  exact_mod_cast hsum

/-- The first half of a diagonal followed by another list. -/
lemma entry_take_append {active : ℕ} (M : Dense (Amplitude ℝ) (2 ^ (active + 1)) (2 ^ (active + 1))) (l : List (Amplitude ℝ)) :
    (∀ i : Fin (2 ^ (active + 1)), i.val < 2 ^ active →
      entry (M.diagonal.take (2 ^ active) ++ l) i = M.toMatrix i i) ∧
    ∀ x : Fin (2 ^ active), entry (M.diagonal.take (2 ^ active) ++ l) (secondHalf x) = entry l x := by
  have hlen : (M.diagonal.take (2 ^ active)).length = 2 ^ active := by
    rw [List.length_take, Dense.length_diagonal, Nat.pow_succ]
    omega
  constructor
  · intro i hi
    rw [entry, List.getD_append _ _ _ _ (by rwa [hlen]), List.getD_eq_getElem _ _ (by rwa [hlen]), List.getElem_take,
      Dense.getElem_diagonal]
    rfl
  · intro x
    rw [entry, List.getD_append_right _ _ _ _ (by rw [hlen, secondHalf]; exact Nat.le_add_right _ _), hlen, secondHalf,
      Nat.add_sub_cancel_left, entry]

/-- What peeling a block comes to: with their phase the gates are an operator on the basis states of the block alone, and
this operator after the diagonal is the block. -/
structure Realizes {depth active : ℕ} (p : Compiler.Peeled ℝ) (h : depth + active = qubits)
    (B : Matrix (Fin (2 ^ active)) (Fin (2 ^ active)) ℂ) : Prop where
  length : p.diagonal.length = 2 ^ active
  unit : ∀ z ∈ p.diagonal, ‖z.toComplex‖ = 1
  /-- The gates and the diagonal make up the block. -/
  operator : ∃ X : Matrix (Fin (2 ^ active)) (Fin (2 ^ active)) ℂ,
    exp (p.phase * I) • gatesOperator qubits p.gates = corner (topIndex h) X ∧ X * diagonal (listVector p.diagonal) = B

section Realizes

variable {depth active : ℕ}

/-- A reduced column leaves an entry of modulus one on the diagonal. -/
lemma norm_entry_of_reduced {N j : ℕ} {M : Dense (Amplitude ℝ) N N} (hM : Reduced M.toMatrix j) {x : Fin N} (hx : x.val < j) :
    ‖M.toMatrix x x‖ = 1 := by
  have h := hM.normSq_diagonal hx
  rwa [Complex.normSq_eq_norm_sq, pow_eq_one_iff_of_nonneg (norm_nonneg _) two_ne_zero] at h

/-- A unitary block that is diagonal needs no gates. -/
lemma realizes_diagonal (h : depth + active = qubits) {block : Dense (Amplitude ℝ) (2 ^ active) (2 ^ active)}
    (hU : block.toMatrix ∈ unitaryGroup (Fin (2 ^ active)) ℂ) (hdiagonal : ∀ i j, i ≠ j → block.toMatrix i j = 0) :
    Realizes ⟨[], block.diagonal, 0⟩ h block.toMatrix where
  length := block.length_diagonal
  unit z hz := by
    have hreduced : Reduced block.toMatrix (2 ^ active) := ⟨hU, fun i c _ hne => hdiagonal i c hne⟩
    obtain ⟨x, hx, rfl⟩ := List.getElem_of_mem hz
    rw [Dense.getElem_diagonal]
    exact norm_entry_of_reduced hreduced (by simpa using hx)
  operator := by
    refine ⟨1, ?_, ?_⟩
    · rw [Complex.ofReal_zero, zero_mul, Complex.exp_zero, one_smul, gatesOperator_nil, corner_one]
    · rw [Matrix.one_mul]
      ext i j
      rw [diagonal_apply]
      split
      case isTrue hij => rw [← hij, listVector, entry_diagonal]
      case isFalse hij => exact (hdiagonal i j hij).symm

/-- The frame above: its reflections act after the gates of the second half, and its diagonal comes first. -/
lemma Realizes.above {p : Compiler.Peeled ℝ} {h' : depth + 1 + active = qubits}
    {work : Dense (Amplitude ℝ) (2 ^ (active + 1)) (2 ^ (active + 1))}
    (hp : Realizes p h' (Compiler.lowerBlock work).toMatrix) (hwork : Reduced work.toMatrix (2 ^ active))
    (h : depth + (active + 1) = qubits) {R : Matrix (Fin (2 ^ (active + 1))) (Fin (2 ^ (active + 1))) ℂ}
    {gates : List (ElementaryGate ℝ)} {phase : ℝ}
    (hop : exp (phase * I) • gatesOperator qubits gates =
      corner (topIndex h) R * (exp (p.phase * I) • gatesOperator qubits p.gates)) :
    Realizes ⟨gates, work.diagonal.take (2 ^ active) ++ p.diagonal, phase⟩ h (R * work.toMatrix) where
  length := by
    rw [List.length_append, List.length_take, Dense.length_diagonal, hp.length, Nat.pow_succ]
    omega
  unit z hz := by
    rcases List.mem_append.1 hz with hz | hz
    · obtain ⟨x, hx, rfl⟩ := List.getElem_of_mem hz
      have hx' : x < 2 ^ active := by
        rw [List.length_take] at hx
        omega
      rw [List.getElem_take, Dense.getElem_diagonal]
      exact norm_entry_of_reduced hwork hx'
    · exact hp.unit z hz
  operator := by
    obtain ⟨X, hgates, hX⟩ := hp.operator
    obtain ⟨hfirst, hsecond⟩ := entry_take_append work p.diagonal
    have hwhole : corner secondHalf X * diagonal (listVector (work.diagonal.take (2 ^ active) ++ p.diagonal)) =
        work.toMatrix := by
      refine corner_secondHalf_mul_diagonal hwork hfirst ?_
      rw [← toMatrix_lowerBlock, ← hX]
      exact congrArg (X * diagonal ·) (funext hsecond)
    refine ⟨R * corner secondHalf X, ?_, ?_⟩
    · rw [hop, hgates, corner_mul (topIndex_injective h), corner_corner, topIndex_comp_secondHalf h h']
    · rw [Matrix.mul_assoc]
      exact congrArg (R * ·) hwhole

end Realizes

/-- Emitted from the last to the first, the reflectors of a reduction multiply what is there by the product of their
reflections. -/
lemma emitReflectors_gives (hcutoff : c.settings.rotationCutoff = 0) {depth active : ℕ} (h : depth + active = qubits)
    {rs : List (Option (Householder.Reflector ℝ (2 ^ active)))}
    (hrs : ∀ k (r : Householder.Reflector ℝ (2 ^ active)), rs[k]? = some (some r) → r.Clears k)
    (gates : List (ElementaryGate ℝ)) (phase : ℝ) :
    ∃ (gates' : List (ElementaryGate ℝ)) (phase' : ℝ),
      (c.emitReflections depth qubits gates phase ((rs.filterMap id).map fun r => r.vector.toList).reverse).Gives
        (.ok (gates', phase')) ∧
      exp (phase' * I) • gatesOperator qubits gates' =
        corner (topIndex h) (reflections (Householder.directions rs)) * (exp (phase * I) • gatesOperator qubits gates) := by
  have hvectors : ∀ v ∈ ((rs.filterMap id).map fun r => r.vector.toList).reverse,
      v.length = 2 ^ active ∧ ‖amplitudes active (entry v)‖ = 1 := by
    intro v hv
    obtain ⟨r, hr, rfl⟩ := List.mem_map.1 (List.mem_reverse.1 hv)
    obtain ⟨r', hr', hsome⟩ := List.mem_filterMap.1 hr
    obtain ⟨k, hk⟩ := List.mem_iff_getElem?.1 hr'
    have hclears := hrs k r (hk.trans (congrArg some hsome))
    exact ⟨r.vector.length_toList, norm_amplitudes_eq_one (congrFun (listVector_toList r)) hclears.unit⟩
  obtain ⟨gates', phase', hgates, hop⟩ := emitReflections_gives hcutoff h _ (fun v hv => (hvectors v hv).1)
    (fun v hv => (hvectors v hv).2) gates phase
  have hdirections : (rs.filterMap id).map (listVector ∘ fun r => r.vector.toList) = Householder.directions rs :=
    List.map_congr_left fun r _ => listVector_toList r
  rw [List.map_reverse, List.reverse_reverse, List.map_map, hdirections] at hop
  exact ⟨gates', phase', hgates, hop⟩

/-- Peeling a unitary block succeeds and realizes it. -/
lemma peel_gives (hcutoff : c.settings.rotationCutoff = 0) (active : ℕ)
    (block : Dense (Amplitude ℝ) (2 ^ active) (2 ^ active)) (depth : ℕ) (h : depth + active = qubits)
    (hU : block.toMatrix ∈ unitaryGroup (Fin (2 ^ active)) ℂ) (hexact : c.PeelsExactly active block) :
    ∃ p : Compiler.Peeled ℝ, (c.peel qubits active block depth).Gives (.ok p) ∧ Realizes p h block.toMatrix := by
  induction active generalizing depth with
  | zero =>
    refine ⟨_, Synthesis.gives_pure _, realizes_diagonal h hU fun i j hij => ?_⟩
    exact absurd (Fin.ext (by have := i.isLt; have := j.isLt; omega)) hij
  | succ active ih =>
    rw [Compiler.PeelsExactly] at hexact
    rw [Compiler.peel]
    split at hexact
    case isTrue htolerance =>
      rw [if_pos htolerance]
      exact ⟨_, Synthesis.gives_pure _, realizes_diagonal h hU hexact⟩
    case isFalse htolerance =>
      rw [if_neg htolerance]
      obtain ⟨rs, work, hrun, hwork, -, hrs, hblock⟩ := Reducer.steps_run_ofDense hU
        (Nat.pow_le_pow_right two_pos (Nat.le_succ active)) hexact.1
      have hchild : c.PeelsExactly active (Compiler.lowerBlock work) := by
        have h := hexact.2
        rwa [hrun] at h
      have hlower : (Compiler.lowerBlock work).toMatrix ∈ unitaryGroup (Fin (2 ^ active)) ℂ := by
        rw [toMatrix_lowerBlock]
        exact submatrix_secondHalf_mem_unitary hwork
      have h' : depth + 1 + active = qubits := by omega
      obtain ⟨p, hp, hrealizes⟩ := ih (Compiler.lowerBlock work) (depth + 1) h' hlower hchild
      obtain ⟨gates, phase, hgates, hop⟩ := emitReflectors_gives hcutoff h hrs p.gates p.phase
      refine ⟨⟨gates, work.diagonal.take (2 ^ active) ++ p.diagonal, phase⟩, ?_, ?_⟩
      · rw [hrun]
        exact (Synthesis.gives_lift rfl).bind (hp.bind (hgates.bind (Synthesis.gives_pure _)))
      · rw [hblock]
        exact hrealizes.above hwork h hop

end Peeling

namespace Compiler

variable {c : Compiler ℝ} {n : ℕ} {U : Dense (Amplitude ℝ) (2 ^ n) (2 ^ n)}

/-- Checking an operator does not change it. -/
lemma eq_of_validate_eq_ok {u : Dense (Amplitude ℝ) (2 ^ n) (2 ^ n)} (h : c.validate U n = .ok u) : u = U := by
  rw [validate] at h
  simp only [bind, Except.bind, pure, Except.pure] at h
  split_ifs at h
  rw [← Except.ok.inj h, Dense.cast_rfl]

/-- A unitary operator that is classed has passed the checks unchanged. -/
lemma validate_of_classify {kind : Classification} (h : c.classify U n = .ok kind) :
    c.validate U n = .ok U ∧ c.classOf U = kind := by
  rw [classify] at h
  cases hvalidate : c.validate U n with
  | error e =>
    rw [hvalidate] at h
    cases h
  | ok u =>
    rw [hvalidate] at h
    obtain rfl := eq_of_validate_eq_ok hvalidate
    exact ⟨rfl, Except.ok.inj h⟩

/-- The gates of the general synthesis are the operator. -/
lemma compileGeneral_gives (hcutoff : c.settings.rotationCutoff = 0) (hU : U.toMatrix ∈ unitaryGroup (Fin (2 ^ n)) ℂ)
    (hexact : c.PeelsExactly n U) :
    ∃ (gates : List (ElementaryGate ℝ)) (phase : ℝ), (c.compileGeneral U).Gives (.ok (gates, phase)) ∧
      exp (phase * I) • gatesOperator n gates = U.toMatrix := by
  obtain ⟨p, hp, hrealizes⟩ := peel_gives hcutoff n U 0 (Nat.zero_add n) hU hexact
  obtain ⟨X, hX, hblock⟩ := hrealizes.operator
  obtain ⟨gates, phase, hgates, -, hop⟩ := synthesizeDiagonal_of_unit p.diagonal hrealizes.length hrealizes.unit 0
  have hdiagonal : exp (phase * I) • gatesOperator n gates = diagonal (listVector p.diagonal) := by
    rw [hop n (Nat.zero_add n).le]
    congr 1
    funext i
    rw [field_lowest, Nat.mod_eq_of_lt i.isLt, listVector]
  refine ⟨gates ++ p.gates, phase + p.phase, ?_, ?_⟩
  · rw [compileGeneral, hcutoff]
    exact hp.bind (hgates.bind (Synthesis.gives_pure _))
  · rw [topIndex_zero, corner_id] at hX
    rw [gatesOperator_append, Complex.exp_ofReal_add_mul_I, mul_comm, mul_smul, ← Matrix.mul_smul,
      hdiagonal, ← Matrix.smul_mul, hX, hblock]

/-- An operator classed as general is handed to the general synthesis. -/
lemma compile_of_general (hclass : c.classify U n = .ok .general) {gates : List (ElementaryGate ℝ)} {phase : ℝ}
    (hgates : (c.compileGeneral U).Gives (.ok (gates, phase))) :
    (c.compile U n).Gives (.ok ⟨n, gates, phase, .general⟩) := by
  obtain ⟨hvalidate, hkind⟩ := validate_of_classify hclass
  refine (Synthesis.gives_lift hvalidate).bind ?_
  rw [hkind]
  exact hgates.bind (Synthesis.gives_pure _)

/-- If the compiler classes a unitary operator as general and leaves out no rotation, and if the peeling ignores nothing,
compilation succeeds, and the program is the operator, its global phase included. -/
theorem compile_general_operator (hcutoff : c.settings.rotationCutoff = 0)
    (hU : U.toMatrix ∈ unitaryGroup (Fin (2 ^ n)) ℂ) (hclass : c.classify U n = .ok .general)
    (hexact : c.PeelsExactly n U) :
    ∃ (gates : List (ElementaryGate ℝ)) (phase : ℝ), (c.compile U n).Gives (.ok ⟨n, gates, phase, .general⟩) ∧
      Program.operator ⟨n, gates, phase, .general⟩ = U.toMatrix := by
  obtain ⟨gates, phase, hgates, hop⟩ := compileGeneral_gives hcutoff hU hexact
  refine ⟨gates, phase, compile_of_general hclass hgates, ?_⟩
  rw [← hop]
  exact congrArg (· • _) (Amplitude.toComplex_phase phase)

section Example

/-- An exactly unitary operator that is not too wide passes the checks. -/
lemma classify_eq_ok (hn : n ≠ 0) (hmax : n ≤ c.settings.maxQubits.toNat) (htolerance : 0 < c.settings.unitarityTolerance)
    (hU : U.toMatrix ∈ unitaryGroup (Fin (2 ^ n)) ℂ) : c.classify U n = .ok (c.classOf U) := by
  have hvalidate : c.validate U n = .ok U := by
    rw [validate]
    simp [hn, not_lt.2 hmax, Dense.unitarityDeviation_eq_zero hU, htolerance, pure, Except.pure]
  rw [classify, hvalidate]
  rfl

/-- Peeling goes straight on to the second half of a block whose first columns are clear. -/
lemma peelsExactly_of_reduced {active : ℕ} {block : Dense (Amplitude ℝ) (2 ^ (active + 1)) (2 ^ (active + 1))}
    (hreduced : Reduced block.toMatrix (2 ^ active)) {i j : Fin (2 ^ (active + 1))} (hij : i ≠ j)
    (hlarge : c.settings.diagonalTolerance ≤ ‖block.toMatrix i j‖) (hlower : c.PeelsExactly active (lowerBlock block)) :
    c.PeelsExactly (active + 1) block := by
  have hcount : (Householder.Reducer.ofDense block).next + 2 ^ active = 2 ^ active := Nat.zero_add _
  obtain ⟨hskip, next, hrun, hnext⟩ := Householder.Reducer.steps_of_reduced (2 ^ active) (q := .ofDense block)
    (by rw [hcount]; exact hreduced) (hcount.trans_le (Nat.pow_le_pow_right two_pos (Nat.le_succ active)))
  have hblock : next = block := Dense.toMatrix_injective hnext
  have hoff : ¬ block.maxOffDiagonal < c.settings.diagonalTolerance :=
    not_lt.2 (hlarge.trans (block.norm_le_maxOffDiagonal fun h => hij (Fin.ext h)))
  rw [PeelsExactly, if_neg hoff, hrun, hblock]
  exact ⟨hskip, hlower⟩

/-- The exchange of the last two basis states. -/
def exchangeLast (k : ℕ) : Equiv.Perm (Fin (2 ^ (k + 1))) :=
  Equiv.swap ⟨2 ^ (k + 1) - 2, by have := Nat.two_pow_pos (k + 1); omega⟩
    ⟨2 ^ (k + 1) - 1, by have := Nat.two_pow_pos (k + 1); omega⟩

/-- On the second half the exchange of the last two basis states is the one on a wire less. -/
lemma exchangeLast_secondHalf (k : ℕ) (x : Fin (2 ^ (k + 1))) :
    exchangeLast (k + 1) (secondHalf x) = secondHalf (exchangeLast k x) := by
  have hpos := Nat.two_pow_pos k
  have hsucc : 2 ^ (k + 1) = 2 ^ k * 2 := Nat.pow_succ _ _
  have hsucc' : 2 ^ (k + 1 + 1) = 2 ^ (k + 1) * 2 := Nat.pow_succ _ _
  rw [exchangeLast, exchangeLast, ← secondHalf_injective.swap_apply]
  congr 2
  · exact Fin.ext (by simp only [secondHalf]; omega)
  · exact Fin.ext (by simp only [secondHalf]; omega)

/-- A permutation of basis states is unitary. -/
lemma inclusion_mem_unitary {N : ℕ} (σ : Equiv.Perm (Fin N)) : inclusion σ ∈ unitaryGroup (Fin N) ℂ :=
  mem_unitaryGroup_iff'.2 (inclusion_conjTranspose_mul_self σ.injective)

/-- The exchange of the last two basis states is unitary, as a stored matrix. -/
lemma ofMatrix_exchangeLast_mem_unitary (k : ℕ) :
    (Dense.ofMatrix (inclusion (exchangeLast k))).toMatrix ∈ unitaryGroup (Fin (2 ^ (k + 1))) ℂ := by
  rw [Dense.toMatrix_ofMatrix]
  exact inclusion_mem_unitary _

/-- The last two basis states are exchanged. -/
lemma inclusion_exchangeLast_apply (k : ℕ) (h₁ : 2 ^ (k + 1) - 1 < 2 ^ (k + 1)) (h₂ : 2 ^ (k + 1) - 2 < 2 ^ (k + 1)) :
    inclusion (exchangeLast k) ⟨2 ^ (k + 1) - 1, h₁⟩ ⟨2 ^ (k + 1) - 2, h₂⟩ = 1 := by
  rw [inclusion_apply, exchangeLast, Equiv.swap_apply_left, if_pos rfl]

/-- A block on one wire whose first column does not count as clear is peeled exactly. -/
lemma peelsExactly_one {block : Dense (Amplitude ℝ) (2 ^ 1) (2 ^ 1)} (hU : block.toMatrix ∈ unitaryGroup (Fin (2 ^ 1)) ℂ)
    {i : Fin (2 ^ 1)} (hi : 0 < i.val) (hentry : Householder.reducedRatio < ‖block.toMatrix i ⟨0, Nat.two_pow_pos 1⟩‖)
    (hlarge : c.settings.diagonalTolerance ≤ ‖block.toMatrix i ⟨0, Nat.two_pow_pos 1⟩‖) : c.PeelsExactly 1 block := by
  have hreduced : Reduced block.toMatrix 0 := ⟨hU, fun _ _ h => absurd h (Nat.not_lt_zero _)⟩
  have hskips : ¬ Householder.Skips block (Nat.two_pow_pos 1) := by
    intro h
    have hsmall := Householder.norm_le_of_skips h hi
    rw [hreduced.columnNorm_eq_one, mul_one] at hsmall
    exact absurd hsmall (not_le.2 hentry)
  have hstep := Householder.Reducer.step_of_not_skips (q := .ofDense block) (Nat.two_pow_pos 1) (Nat.two_pow_pos 1)
    (hreduced.minColumnNorm_le _) hskips
  have hoff := not_lt.2 (hlarge.trans (block.norm_le_maxOffDiagonal hi.ne'))
  rw [PeelsExactly, if_neg hoff]
  refine ⟨⟨fun h => ?_, trivial⟩, trivial⟩
  rw [hstep] at h
  cases h

/-- The exchange leaves the first half of the basis states alone. -/
lemma reduced_exchangeLast (k : ℕ) : Reduced (inclusion (exchangeLast (k + 1))) (2 ^ (k + 1)) := by
  have hpos := Nat.two_pow_pos k
  have hsucc : 2 ^ (k + 1) = 2 ^ k * 2 := Nat.pow_succ _ _
  have hsucc' : 2 ^ (k + 1 + 1) = 2 ^ (k + 1) * 2 := Nat.pow_succ _ _
  refine ⟨inclusion_mem_unitary _, fun i c hc hi => ?_⟩
  have hfixed : exchangeLast (k + 1) c = c :=
    Equiv.swap_apply_of_ne_of_ne (fun h => by rw [h] at hc; simp only at hc; omega)
      fun h => by rw [h] at hc; simp only at hc; omega
  rw [inclusion_apply, hfixed, if_neg hi]

/-- The second half of the exchange, as a stored matrix, is the exchange on a wire less. -/
lemma lowerBlock_exchangeLast (k : ℕ) :
    lowerBlock (Dense.ofMatrix (inclusion (exchangeLast (k + 1)))) = .ofMatrix (inclusion (exchangeLast k)) := by
  apply Dense.toMatrix_injective
  rw [toMatrix_lowerBlock, Dense.toMatrix_ofMatrix, Dense.toMatrix_ofMatrix]
  ext x y
  rw [submatrix_apply, inclusion_apply, inclusion_apply, exchangeLast_secondHalf]
  simp only [secondHalf_injective.eq_iff]

/-- A controlled exchange of the last two basis states is peeled exactly down to the exchange itself. -/
lemma peelsExactly_exchangeLast (htolerance : c.settings.diagonalTolerance ≤ 1) (k : ℕ) :
    c.PeelsExactly (k + 1) (.ofMatrix (inclusion (exchangeLast k))) := by
  induction k with
  | zero =>
    have hentry : ‖(Dense.ofMatrix (inclusion (exchangeLast 0))).toMatrix ⟨1, by decide⟩ ⟨0, by decide⟩‖ = 1 := by
      rw [Dense.toMatrix_ofMatrix]
      exact (congrArg norm (inclusion_exchangeLast_apply 0 (by decide) (by decide))).trans norm_one
    refine peelsExactly_one (ofMatrix_exchangeLast_mem_unitary 0) (show 0 < (⟨1, by decide⟩ : Fin (2 ^ 1)).val by decide) ?_ ?_
    · rw [hentry, Householder.reducedRatio_eq]
      norm_num
    · rwa [hentry]
  | succ k ih =>
    have hpos := Nat.two_pow_pos (k + 1 + 1)
    have hreduced : Reduced (Dense.ofMatrix (inclusion (exchangeLast (k + 1)))).toMatrix (2 ^ (k + 1)) := by
      rw [Dense.toMatrix_ofMatrix]
      exact reduced_exchangeLast k
    refine peelsExactly_of_reduced hreduced (i := ⟨2 ^ (k + 1 + 1) - 1, by omega⟩) (j := ⟨2 ^ (k + 1 + 1) - 2, by omega⟩)
      ?_ ?_ (lowerBlock_exchangeLast k ▸ ih)
    · rw [Ne, Fin.mk.injEq]
      have hsucc : 2 ^ (k + 1 + 1) = 2 ^ (k + 1) * 2 := Nat.pow_succ _ _
      omega
    · rw [Dense.toMatrix_ofMatrix, inclusion_exchangeLast_apply, norm_one]
      exact htolerance

/-- A compiler with the standard settings, except that it leaves out no rotation. -/
noncomputable def unpruned : Compiler ℝ := ⟨{ Settings.standard with rotationCutoff := 0 }, .standard⟩

/-- The standard tolerance on diagonals is less than one. -/
lemma unpruned_diagonalTolerance_le : unpruned.settings.diagonalTolerance ≤ 1 := by
  change (1e-10 : ℝ) ≤ 1
  norm_num

/-- On three wires the exchange is neither diagonal nor small enough for a synthesis of its own. -/
lemma classify_exchangeLast : unpruned.classify (.ofMatrix (inclusion (exchangeLast 2))) 3 = .ok .general := by
  have hunitarity : 0 < unpruned.settings.unitarityTolerance := by
    change (0 : ℝ) < 1e-8
    norm_num
  have hoff : ¬ (Dense.ofMatrix (inclusion (exchangeLast 2))).maxOffDiagonal < unpruned.settings.diagonalTolerance := by
    have hentry := Dense.norm_le_maxOffDiagonal (Dense.ofMatrix (inclusion (exchangeLast 2)))
      (i := ⟨7, by decide⟩) (j := ⟨6, by decide⟩) (by decide)
    have hone := inclusion_exchangeLast_apply 2 (by decide) (by decide)
    rw [Dense.toMatrix_ofMatrix] at hentry
    exact not_lt.2 (unpruned_diagonalTolerance_le.trans ((congrArg norm hone).trans norm_one ▸ hentry))
  rw [classify_eq_ok (by decide) (by decide) hunitarity (ofMatrix_exchangeLast_mem_unitary 2), classOf, if_neg (by decide),
    if_neg hoff, if_neg (by decide)]

end Example

/-- A doubly controlled exchange, with the standard settings but for the cutoff. -/
theorem compile_general_operator_toffoli : ∃ (gates : List (ElementaryGate ℝ)) (phase : ℝ),
    ((⟨{ Settings.standard with rotationCutoff := 0 }, .standard⟩ : Compiler ℝ).compile
      (.ofMatrix (inclusion (exchangeLast 2))) 3).Gives (.ok ⟨3, gates, phase, .general⟩) ∧
      Program.operator ⟨3, gates, phase, .general⟩ = inclusion (exchangeLast 2) := by
  obtain ⟨gates, phase, hcompile, hop⟩ := compile_general_operator (c := unpruned) rfl (ofMatrix_exchangeLast_mem_unitary 2)
    classify_exchangeLast (peelsExactly_exchangeLast unpruned_diagonalTolerance_le 2)
  exact ⟨gates, phase, hcompile, hop.trans (Dense.toMatrix_ofMatrix _)⟩

end Compiler

end CircuitSynthesis
