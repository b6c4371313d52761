import Mathlib
import CircuitSynthesis.Proofs.TwoQubit.Decomposition
import CircuitSynthesis.Proofs.TwoQubit.Gates

/-!
# Local operators need no interaction

A matrix on one wire changes the alternating form by its determinant, and the magic basis turns the form on both wires
into the dot product. Hence the symmetric matrix of a local operator is a multiple of the identity, by one or minus one
since its determinant is one. Every orthonormal basis diagonalizes it, so that the first draw is accepted, and the
coefficients are whole quarter turns, of which nothing remains. Without an interaction only four matrices are left, and
fusing leaves at most one on each wire (`exists_sublist_fuse`).
-/

namespace CircuitSynthesis.TwoQubit

open Matrix
open Complex (I exp)

section Form

/-- The alternating form on one wire. -/
def alternating : Matrix Bool Bool ℂ := .of fun a b => if a = b then 0 else if b then 1 else -1

/-- A matrix changes the alternating form by its determinant. -/
lemma transpose_mul_alternating_mul (L : Matrix Bool Bool ℂ) : Lᵀ * alternating * L = L.det • alternating := by
  ext i j
  simp only [Matrix.mul_apply, Fintype.sum_bool, transpose_apply, Matrix.smul_apply, det_bool, alternating, of_apply]
  cases i <;> cases j <;> simp <;> ring

/-- The transpose of a tensor product, factor by factor. -/
lemma transpose_tensorMatrix (L R : Matrix Bool Bool ℂ) : (tensorMatrix L R)ᵀ = tensorMatrix Lᵀ Rᵀ := by
  apply ext_pairs
  intro a b c d
  rw [transpose_apply, tensorMatrix_apply, tensorMatrix_apply]
  rfl

/-- A tensor product of unitary matrices is unitary. -/
lemma tensorMatrix_mem_unitary {A B : Matrix Bool Bool ℂ} (hA : A ∈ unitaryGroup Bool ℂ) (hB : B ∈ unitaryGroup Bool ℂ) :
    tensorMatrix A B ∈ unitaryGroup (Fin 4) ℂ := by
  have hadjoint : star (tensorMatrix A B) = tensorMatrix (star A) (star B) := by
    apply ext_pairs
    intro a b c d
    rw [star_apply, tensorMatrix_apply, tensorMatrix_apply, star_mul']
    rfl
  rw [mem_unitaryGroup_iff', hadjoint, tensorMatrix_mul, mem_unitaryGroup_iff'.1 hA, mem_unitaryGroup_iff'.1 hB,
    tensorMatrix_one]

/-- Outside the magic basis the dot product is the alternating form on both wires. -/
lemma conjTranspose_magic_form : magicᴴᵀ * magicᴴ = tensorMatrix alternating alternating := by
  have hintegral : integralMagicᴴᵀ * integralMagicᴴ = (2 : ℂ) • tensorMatrix alternating alternating := by
    apply ext_pairs
    intro a b c d
    rw [Matrix.mul_apply, Fin.sum_univ_four, Matrix.smul_apply, tensorMatrix_apply]
    simp only [transpose_apply, conjTranspose_apply, integralMagic, alternating, of_apply]
    cases a <;> cases b <;> cases c <;> cases d <;> simp <;> norm_num
  rw [magic_eq, conjTranspose_smul, transpose_smul, Matrix.smul_mul, Matrix.mul_smul, smul_smul, Complex.star_def,
    Complex.conj_ofReal, Scalar.ofReal_sqrtHalf_mul_self, hintegral, smul_smul]
  norm_num

/-- In the magic basis a local operator is orthogonal up to the determinants of its factors. -/
lemma transpose_mul_magic_tensorMatrix (L R : Matrix Bool Bool ℂ) :
    (magicᴴ * tensorMatrix L R * magic)ᵀ * (magicᴴ * tensorMatrix L R * magic) = (L.det * R.det) • 1 := by
  have hform : (tensorMatrix L R)ᵀ * (magicᴴᵀ * magicᴴ) * tensorMatrix L R = (L.det * R.det) • (magicᴴᵀ * magicᴴ) := by
    rw [conjTranspose_magic_form, transpose_tensorMatrix, tensorMatrix_mul, tensorMatrix_mul,
      transpose_mul_alternating_mul, transpose_mul_alternating_mul, tensorMatrix_smul_left, tensorMatrix_smul_right,
      smul_smul]
  calc (magicᴴ * tensorMatrix L R * magic)ᵀ * (magicᴴ * tensorMatrix L R * magic)
      = magicᵀ * ((tensorMatrix L R)ᵀ * (magicᴴᵀ * magicᴴ) * tensorMatrix L R) * magic := by
        rw [transpose_mul, transpose_mul]
        noncomm_ring
    _ = (L.det * R.det) • ((magicᴴ * magic)ᵀ * (magicᴴ * magic)) := by
        rw [hform, Matrix.mul_smul, Matrix.smul_mul, transpose_mul]
        congr 1
        noncomm_ring
    _ = (L.det * R.det) • 1 := by rw [magic_conjTranspose_mul, transpose_one, Matrix.one_mul]

/-- A phase goes into the left factor. -/
lemma toMatrix_scale_tensor (A B : Matrix2 ℝ) (t : ℝ) : ((tensor A B).scale (Amplitude.phase t)).toMatrix =
    tensorMatrix (A.scale (Amplitude.phase t)).toMatrix B.toMatrix := by
  rw [Dense.toMatrix_scale, toMatrix_tensor, Matrix2.toMatrix_scale, tensorMatrix_smul_left]

/-- A tensor product of unitary matrices with a phase in front is unitary. -/
lemma scale_tensor_mem_unitary {A B : Matrix2 ℝ} (hA : A.toMatrix ∈ unitaryGroup Bool ℂ)
    (hB : B.toMatrix ∈ unitaryGroup Bool ℂ) (t : ℝ) :
    ((tensor A B).scale (Amplitude.phase t)).toMatrix ∈ unitaryGroup (Fin 4) ℂ := by
  rw [toMatrix_scale_tensor]
  apply tensorMatrix_mem_unitary _ hB
  rw [Matrix2.toMatrix_scale, Amplitude.toComplex_phase]
  exact Unitary.smul_mem_of_mem (Complex.exp_ofReal_mul_I_mem_unitary t) hA

end Form

section Gram

variable {u : Dense (Amplitude ℝ) 4 4} {A B : Matrix Bool Bool ℂ}

/-- The symmetric matrix of a local operator is the identity, up to a sign. -/
lemma toMatrix_gram_of_local (hu : u.toMatrix ∈ unitaryGroup (Fin 4) ℂ) (hlocal : u.toMatrix = tensorMatrix A B) :
    ∃ z : ℂ, (z = 1 ∨ z = -1) ∧ (gram u).toMatrix = z • 1 := by
  let L : Matrix Bool Bool ℂ := exp ((-quarterPhase u : ℝ) * I) • A
  have hspecial : (special u).toMatrix = tensorMatrix L B := by
    rw [toMatrix_special, hlocal, tensorMatrix_smul_left]
  have hsquare : L.det * B.det * (L.det * B.det) = 1 := by
    rw [← det_special hu, hspecial, det_tensorMatrix]
    ring
  refine ⟨L.det * B.det, mul_self_eq_one_iff.1 hsquare, ?_⟩
  rw [gram, Dense.toMatrix_dot, Dense.toMatrix_transpose, toMatrix_inMagicBasis, hspecial,
    transpose_mul_magic_tensorMatrix]

end Gram

section FirstDraw

variable {m : Dense (Amplitude ℝ) 4 4} {p : Dense ℝ 4 4} {z : ℂ}

/-- A multiple of the identity is the same in every orthonormal basis. -/
lemma toMatrix_congruence_of_scalar (hm : m.toMatrix = z • 1) (hp : p.toReal ∈ orthogonalGroup (Fin 4) ℝ) :
    (congruence p m).toMatrix = z • 1 := by
  rw [toMatrix_congruence, hm, Matrix.mul_smul, Matrix.mul_one, Matrix.smul_mul, ← transpose_map, ← Matrix.map_mul,
    (mem_orthogonalGroup_iff' _ _).1 hp, Matrix.map_one _ (map_zero _) (map_one _)]

/-- A multiple of the identity is diagonal. -/
lemma isDiag_of_scalar (hm : m.toMatrix = z • 1) : m.toMatrix.IsDiag := by
  rw [hm]
  exact isDiag_one.smul z

/-- The basis that a matrix of eigenvectors gives once its columns are put in order. -/
noncomputable def sortedBasis (q : Dense ℝ 4 4) (m : Dense (Amplitude ℝ) 4 4) : Dense ℝ 4 4 :=
  orient q (angleOrder (congruence q m))

/-- The sorted basis of an orthogonal matrix is a rotation. -/
lemma sortedBasis_mem (hp : p.toReal ∈ orthogonalGroup (Fin 4) ℝ) (m : Dense (Amplitude ℝ) 4 4) :
    (sortedBasis p m).toReal ∈ specialOrthogonalGroup (Fin 4) ℝ := orient_mem hp (List.mergeSort_perm _ _)

/-- The basis of the first draw is taken for a multiple of the identity. -/
lemma diagonalize_of_scalar (kernel : SpectralKernel ℝ) (draws : ℕ → ℝ) {attempts : ℕ} (hm : m.toMatrix = z • 1)
    (horthonormal : (kernel.eigenvectors (mixing m (draws 0) (draws 1))).toReal ∈ orthogonalGroup (Fin 4) ℝ)
    (hpos : 0 < attempts) : diagonalize kernel draws attempts m =
      .ok (sortedBasis (kernel.eigenvectors (mixing m (draws 0) (draws 1))) m) := by
  have hscalar := toMatrix_congruence_of_scalar hm horthonormal
  have hfirst : basisOfMixing? kernel m (draws 0) (draws 1) =
      some (sortedBasis (kernel.eigenvectors (mixing m (draws 0) (draws 1))) m) := by
    apply basisOfMixing?_eq_some_iff.2
    refine ⟨?_, rfl⟩
    rw [Dense.maxOffDiagonal_eq_zero (isDiag_of_scalar hscalar)]
    norm_num [eigenTolerance]
  cases attempts with
  | zero => exact absurd hpos (Nat.lt_irrefl 0)
  | succ attempts =>
    apply diagonalize_eq_ok_iff.2
    rw [findBasis?, hfirst]

end FirstDraw

/-- Nothing remains of whole quarter turns. -/
lemma withoutTurns_eq_zero (k : ℤ) : withoutTurns (k * (Real.pi / 2)) = 0 := by
  obtain ⟨n, -, hrest, hle⟩ := exists_quarterTurns_eq (k * (Real.pi / 2))
  have hpi := Real.pi_pos
  have hdiff : withoutTurns (k * (Real.pi / 2)) = ((k - n : ℤ) : ℝ) * (Real.pi / 2) := by
    push_cast
    linarith
  have hnear : |((k - n : ℤ) : ℝ)| < 1 := by
    rw [hdiff, abs_mul, abs_of_pos (by linarith : 0 < Real.pi / 2)] at hle
    by_contra hge
    nlinarith [not_lt.1 hge]
  have hzero : k - n = 0 := Int.abs_lt_one_iff.1 (by exact_mod_cast hnear)
  rw [hdiff, hzero, Int.cast_zero, zero_mul]

namespace Fusion

/-- Nothing is written while only matrices on the two wires are taken. -/
lemma written_foldl_add {gates : List (ElementaryGate ℝ)} (f : Fusion ℝ) (h : ∀ g ∈ gates, waits g = true) :
    (gates.foldl add f).written = f.written := by
  induction gates generalizing f with
  | nil => rfl
  | cons g gates ih =>
    rw [List.forall_mem_cons] at h
    rw [List.foldl_cons, ih _ h.2, written_add_of_waits h.1]

/-- Flushing a wire writes at most one matrix there. -/
lemma exists_sublist_flush (f : Fusion ℝ) (wire : ℕ) :
    ∃ u, (f.flush wire).written.reverse.Sublist (f.written.reverse ++ [.unitary wire u]) := by
  rcases written_flush f wire with hsame | ⟨-, u, -, hwritten⟩
  · exact ⟨.identity, hsame ▸ List.sublist_append_left _ _⟩
  · exact ⟨u, by rw [hwritten, List.reverse_cons]⟩

end Fusion

/-- Matrices on the two wires are fused into at most one on each of them. -/
theorem exists_sublist_fuse {gates : List (ElementaryGate ℝ)} (h : ∀ g ∈ gates, waits g = true) (phase : ℝ) :
    ∃ u v, (fuse gates phase).1.Sublist [.unitary 1 u, .unitary 0 v] := by
  let f := gates.foldl Fusion.add ⟨none, none, [], phase⟩
  have hnone : f.written = [] := Fusion.written_foldl_add _ h
  obtain ⟨u, hhigh⟩ := Fusion.exists_sublist_flush f 1
  obtain ⟨v, hlow⟩ := Fusion.exists_sublist_flush (f.flush 1) 0
  rw [hnone] at hhigh
  exact ⟨u, v, hlow.trans (hhigh.append_right _)⟩

namespace Decomposition

section Coefficients

variable {d : Dense (Amplitude ℝ) 4 4} {z : ℂ}

/-- All half phases but the last are equal where the diagonal is constant. -/
lemma halfPhases_of_scalar (hd : d.toMatrix = z • 1) {i : Fin 4} (hi : i ≠ 3) : halfPhases d i = z.arg / 2 := by
  have hentry : (d.get i i).toComplex = z := by
    rw [← Dense.toMatrix_apply, hd, Matrix.smul_apply, one_apply_eq, smul_eq_mul, mul_one]
  rw [halfPhases]
  dsimp only
  rw [if_neg hi, Amplitude.arg_eq, hentry, Scalar.two_real]

/-- Where the diagonal is the identity up to a sign, the coefficients are whole quarter turns. -/
lemma withoutTurns_halfPhases (hz : z = 1 ∨ z = -1) (hd : d.toMatrix = z • 1) {i j : Fin 4} (hi : i ≠ 3) (hj : j ≠ 3) :
    withoutTurns ((halfPhases d i + halfPhases d j) / Scalar.two) = 0 := by
  have hquarter : ∃ k : ℤ, z.arg / 2 = k * (Real.pi / 2) := by
    cases hz with
    | inl hone => exact ⟨0, by rw [hone, Complex.arg_one]; simp⟩
    | inr hminus => exact ⟨1, by rw [hminus, Complex.arg_neg_one]; simp⟩
  obtain ⟨k, hk⟩ := hquarter
  rw [halfPhases_of_scalar hd hi, halfPhases_of_scalar hd hj, Scalar.two_real, add_self_div_two, hk]
  exact withoutTurns_eq_zero k

end Coefficients

section Gates

variable {d : Decomposition ℝ} {cutoff : ℝ}

/-- Without an interaction only the local factors are left. -/
lemma waits_rawGates (ha : d.a = 0) (hb : d.b = 0) (hc : d.c = 0) (hcutoff : 0 < cutoff) :
    ∀ g ∈ d.rawGates cutoff, waits g = true := by
  have hnone (block : List (ElementaryGate ℝ)) : unlessSmall cutoff 0 block = [] := unlessSmall_zero hcutoff block
  rw [rawGates, ha, hb, hc]
  simp [hnone]

/-- Without an interaction there is at most one matrix on each wire, and nothing else. -/
lemma countP_gates_of_zero (ha : d.a = 0) (hb : d.b = 0) (hc : d.c = 0) (hcutoff : 0 < cutoff) :
    (d.gates cutoff).1.countP ElementaryGate.isEntangler = 0 ∧
      (d.gates cutoff).1.countP ElementaryGate.isRotation = 0 ∧
      ∀ wire, (d.gates cutoff).1.countP (fun g => wire ∈ g.wires) ≤ 1 := by
  obtain ⟨u, v, hsub⟩ := exists_sublist_fuse (waits_rawGates ha hb hc hcutoff) d.globalPhase
  refine ⟨Nat.le_zero.1 hsub.countP_le, Nat.le_zero.1 hsub.countP_le, fun wire => hsub.countP_le.trans ?_⟩
  by_cases hone : wire = 1
  case pos => simp [ElementaryGate.wires, hone]
  case neg => by_cases hzero : wire = 0 <;> simp [ElementaryGate.wires, hone, hzero]

end Gates

section Local

variable {kernel : SpectralKernel ℝ} {u : Dense (Amplitude ℝ) 4 4} {p : Dense ℝ 4 4}

/-- The local factors exist wherever a rotation makes the symmetric matrix diagonal. -/
lemma exists_factorizes (hu : u.toMatrix ∈ unitaryGroup (Fin 4) ℂ) (hp : p.toReal ∈ specialOrthogonalGroup (Fin 4) ℝ)
    (hdiag : (congruence p (gram u)).toMatrix.IsDiag) : ∃ outer inner,
      LocalFactors.ofOrthogonal ((outerMatrix u p).map (·.re)) = .ok outer ∧
      LocalFactors.ofOrthogonal p.transpose = .ok inner ∧ outer.Factorizes (fromMagic (outerMatrix u p).toMatrix) ∧
      inner.Factorizes (fromMagic (p.toRealᵀ.map (algebraMap ℝ ℂ))) := by
  obtain ⟨hP, hdetP⟩ := mem_specialOrthogonalGroup_iff.1 hp
  have hreal : ((outerMatrix u p).map (·.re)).toReal = (outerMatrix u p).toMatrix.map Complex.re := by
    rw [Dense.map, Dense.toReal_ofFn]
    rfl
  obtain ⟨hrotation, hcomplex⟩ := outerMatrix_mem hu hp hdiag
  rw [← hreal, mem_specialOrthogonalGroup_iff] at hrotation
  obtain ⟨outer, houter, houterFactors⟩ := LocalFactors.ofOrthogonal_gives hrotation.1 hrotation.2
  have hinverse : p.transpose.toReal ∈ orthogonalGroup (Fin 4) ℝ := by
    rw [Dense.toReal_transpose]
    exact transpose_mem_unitaryGroup_iff.2 hP
  have hdetInverse : p.transpose.toReal.det = 1 := by rw [Dense.toReal_transpose, det_transpose, hdetP]
  obtain ⟨inner, hinner, hinnerFactors⟩ := LocalFactors.ofOrthogonal_gives hinverse hdetInverse
  rw [hreal, hcomplex] at houterFactors
  rw [Dense.toReal_transpose] at hinnerFactors
  exact ⟨outer, inner, houter, hinner, houterFactors, hinnerFactors⟩

/-- A local operator is decomposed with the first draw, and without an interaction. -/
lemma exists_ofUnitary_of_local (hkernel : kernel.IsExactOn u) (hu : u.toMatrix ∈ unitaryGroup (Fin 4) ℂ)
    {A B : Matrix Bool Bool ℂ} (hlocal : u.toMatrix = tensorMatrix A B) (seed : UInt64) :
    ∃ d, (∀ (draws : UInt64 → ℕ → ℝ) (attempts : ℕ), draws seed 0 = kernel.draws seed 0 →
        draws seed 1 = kernel.draws seed 1 → 0 < attempts →
        ofUnitary { kernel with draws } seed attempts u = .ok d) ∧
      d.matrix = u ∧ d.a = 0 ∧ d.b = 0 ∧ d.c = 0 := by
  obtain ⟨z, hz, hgram⟩ := toMatrix_gram_of_local hu hlocal
  have heigen := (hkernel.eigenvectors (kernel.draws seed 0) (kernel.draws seed 1)).orthonormal
  let p := sortedBasis (kernel.eigenvectors (mixing (gram u) (kernel.draws seed 0) (kernel.draws seed 1))) (gram u)
  have hp : p.toReal ∈ specialOrthogonalGroup (Fin 4) ℝ := sortedBasis_mem heigen (gram u)
  have horthogonal := (mem_specialOrthogonalGroup_iff.1 hp).1
  have hscalar : (congruence p (gram u)).toMatrix = z • 1 := toMatrix_congruence_of_scalar hgram horthogonal
  obtain ⟨outer, inner, houter, hinner, houterFactors, hinnerFactors⟩ :=
    exists_factorizes hu hp (isDiag_of_scalar hscalar)
  have hsize : ¬u.det4.norm < 1e-12 := by
    rw [Amplitude.norm_eq, Dense.toComplex_det4, norm_det4 hu]
    norm_num
  have hkept : ¬(outer.swapped || inner.swapped) = true := by
    rw [houterFactors.swapped, hinnerFactors.swapped]
    decide
  obtain ⟨factors, hfactors, hexact⟩ := hkernel.singular
  refine ⟨_, fun draws attempts hfirst hsecond hpos =>
    ofUnitary_eq_ok hsize (closestUnitary_eq hfactors hexact hu) ?_ houter hinner hkept, ?_,
    withoutTurns_halfPhases hz hscalar (by decide) (by decide), withoutTurns_halfPhases hz hscalar (by decide) (by decide),
    withoutTurns_halfPhases hz hscalar (by decide) (by decide)⟩
  case refine_1 =>
    have hbasis := diagonalize_of_scalar { kernel with draws } (draws seed) hgram (by rwa [hfirst, hsecond]) hpos
    rw [hfirst, hsecond] at hbasis
    exact hbasis
  case refine_2 =>
    apply Dense.toMatrix_injective
    rw [toMatrix_assemble houterFactors hinnerFactors, interaction_halfPhases, fromMagic_factors horthogonal, smul_special]

/-- A product of two matrices on one wire each, times a phase, is decomposed with the first draw whatever follows it and
however many draws are allowed. There is no interaction, and the gates are at most one matrix on each wire. -/
theorem ofUnitary_tensor (seed : UInt64) (t : ℝ) {A B : Matrix2 ℝ} (hA : A.toMatrix ∈ unitaryGroup Bool ℂ)
    (hB : B.toMatrix ∈ unitaryGroup Bool ℂ) (hkernel : kernel.IsExactOn ((tensor A B).scale (Amplitude.phase t))) :
    ∃ d, (∀ (draws : UInt64 → ℕ → ℝ) (attempts : ℕ), draws seed 0 = kernel.draws seed 0 →
        draws seed 1 = kernel.draws seed 1 → 0 < attempts →
        ofUnitary { kernel with draws } seed attempts ((tensor A B).scale (Amplitude.phase t)) = .ok d) ∧
      d.matrix = (tensor A B).scale (Amplitude.phase t) ∧ d.a = 0 ∧ d.b = 0 ∧ d.c = 0 ∧
      ∀ cutoff > 0, (d.gates cutoff).1.countP ElementaryGate.isEntangler = 0 ∧
        (d.gates cutoff).1.countP ElementaryGate.isRotation = 0 ∧
        ∀ wire, (d.gates cutoff).1.countP (fun g => wire ∈ g.wires) ≤ 1 := by
  obtain ⟨d, hd, hmatrix, ha, hb, hc⟩ :=
    exists_ofUnitary_of_local hkernel (scale_tensor_mem_unitary hA hB t) (toMatrix_scale_tensor A B t) seed
  exact ⟨d, hd, hmatrix, ha, hb, hc, fun cutoff hcutoff => countP_gates_of_zero ha hb hc hcutoff⟩

/-- The standard kernel is exact on local operators. -/
lemma isExactOn_standard_of_local (hu : u.toMatrix ∈ unitaryGroup (Fin 4) ℂ) {A B : Matrix Bool Bool ℂ}
    (hlocal : u.toMatrix = tensorMatrix A B) : SpectralKernel.standard.IsExactOn u := by
  obtain ⟨z, -, hgram⟩ := toMatrix_gram_of_local hu hlocal
  exact isExactOn_standard hu (isDiag_of_scalar hgram)

/-- A Hadamard matrix beside a phase gate, with the standard kernel and a single draw. -/
theorem ofUnitary_tensor_hadamard : ∃ d : Decomposition ℝ,
    ofUnitary .standard 42 1 ((tensor .hadamard .phaseS).scale (Amplitude.phase 1)) = .ok d ∧
      d.a = 0 ∧ d.b = 0 ∧ d.c = 0 ∧ (d.gates 1).1.countP ElementaryGate.isEntangler = 0 := by
  have hunitary := scale_tensor_mem_unitary Matrix2.hadamard_mem_unitary Matrix2.phaseS_mem_unitary 1
  obtain ⟨d, hd, -, ha, hb, hc, hgates⟩ := ofUnitary_tensor 42 1 Matrix2.hadamard_mem_unitary Matrix2.phaseS_mem_unitary
    (isExactOn_standard_of_local hunitary (toMatrix_scale_tensor _ _ 1))
  exact ⟨d, hd SpectralKernel.standard.draws 1 rfl rfl one_pos, ha, hb, hc, (hgates 1 one_pos).1⟩

end Local

end Decomposition

end CircuitSynthesis.TwoQubit
