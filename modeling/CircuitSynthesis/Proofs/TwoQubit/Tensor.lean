import Mathlib
import CircuitSynthesis.TwoQubit.LocalFactors
import CircuitSynthesis.Proofs.Exact.Matrix2

/-!
# Local operators on two wires

`tensorMatrix A B` applies `A` to wire one and `B` to wire zero. An operator is local if it is such a product of two
special unitary matrices. Local operators are closed under products, and the exchange of the wires moves past a local
operator by exchanging its factors. Hence the operators that are local up to an exchange of the wires are closed under
products too, and the determinant tells the two kinds apart.
-/

namespace CircuitSynthesis.TwoQubit

open Matrix
open scoped Kronecker

/-- The values of wires one and zero as an index of two bits. -/
def pairIndex : Bool × Bool ≃ Fin 4 where
  toFun b := ⟨2 * b.1.toNat + b.2.toNat, by rcases b with ⟨_ | _, _ | _⟩ <;> decide⟩
  invFun i := (i.val.testBit 1, i.val.testBit 0)
  left_inv b := by rcases b with ⟨_ | _, _ | _⟩ <;> rfl
  right_inv i := by fin_cases i <;> rfl

section Pairs

@[simp] lemma pairIndex_false_false : pairIndex (false, false) = 0 := rfl

@[simp] lemma pairIndex_false_true : pairIndex (false, true) = 1 := rfl

@[simp] lemma pairIndex_true_false : pairIndex (true, false) = 2 := rfl

@[simp] lemma pairIndex_true_true : pairIndex (true, true) = 3 := rfl

/-- Two matrices agree if they agree on all pairs of bits. -/
lemma ext_pairs {M N : Matrix (Fin 4) (Fin 4) ℂ}
    (h : ∀ a b c d, M (pairIndex (a, b)) (pairIndex (c, d)) = N (pairIndex (a, b)) (pairIndex (c, d))) : M = N := by
  ext i j
  obtain ⟨⟨a, b⟩, rfl⟩ := pairIndex.surjective i
  obtain ⟨⟨c, d⟩, rfl⟩ := pairIndex.surjective j
  exact h a b c d

end Pairs

/-- The matrix that applies `A` to wire one and `B` to wire zero. -/
def tensorMatrix (A B : Matrix Bool Bool ℂ) : Matrix (Fin 4) (Fin 4) ℂ := reindex pairIndex pairIndex (A ⊗ₖ B)

/-- The exchange of the two wires. -/
noncomputable def exchangeWires : Matrix (Fin 4) (Fin 4) ℂ := (swapMatrix : Dense (Amplitude ℝ) 4 4).toMatrix

section Tensor

variable (A B C D : Matrix Bool Bool ℂ)

@[simp] lemma tensorMatrix_apply (a b c d : Bool) :
    tensorMatrix A B (pairIndex (a, b)) (pairIndex (c, d)) = A a c * B b d := by
  simp [tensorMatrix]

/-- Tensor products multiply factor by factor. -/
lemma tensorMatrix_mul : tensorMatrix A B * tensorMatrix C D = tensorMatrix (A * C) (B * D) := by
  rw [tensorMatrix, tensorMatrix, tensorMatrix, mul_kronecker_mul, reindex_apply, reindex_apply, reindex_apply,
    submatrix_mul_equiv]

@[simp] lemma tensorMatrix_one : tensorMatrix 1 1 = 1 := by
  rw [tensorMatrix, one_kronecker_one, reindex_apply, submatrix_one_equiv]

/-- A scalar may be taken out of the left factor. -/
lemma tensorMatrix_smul_left (z : ℂ) : tensorMatrix (z • A) B = z • tensorMatrix A B := by
  rw [tensorMatrix, smul_kronecker]
  rfl

/-- A scalar may be taken out of the right factor. -/
lemma tensorMatrix_smul_right (z : ℂ) : tensorMatrix A (z • B) = z • tensorMatrix A B := by
  rw [tensorMatrix, kronecker_smul]
  rfl

/-- The determinant of a tensor product of two matrices on one wire. -/
lemma det_tensorMatrix : (tensorMatrix A B).det = A.det ^ 2 * B.det ^ 2 := by
  rw [tensorMatrix, det_reindex_self, det_kronecker, Fintype.card_bool]

/-- The stored tensor product, as a matrix. -/
lemma toMatrix_tensor (u v : Matrix2 ℝ) : (tensor u v).toMatrix = tensorMatrix u.toMatrix v.toMatrix := by
  ext i j
  rw [tensor, Dense.kron, Dense.toMatrix_ofFn, Matrix.of_apply, Amplitude.toComplex_mul]
  fin_cases i <;> fin_cases j <;> rfl

end Tensor

section Exchange

/-- The exchange of the wires permutes the pairs. -/
lemma exchangeWires_eq : exchangeWires = reindex pairIndex pairIndex (Equiv.prodComm Bool Bool).toPEquiv.toMatrix := by
  ext i j
  rw [exchangeWires, swapMatrix, Dense.toMatrix_ofFn, Matrix.of_apply, reindex_apply, submatrix_apply]
  fin_cases i <;> fin_cases j <;> simp +decide [PEquiv.toMatrix_apply]

/-- The exchange of the wires exchanges the factors of a tensor product. -/
lemma exchangeWires_mul (A B : Matrix Bool Bool ℂ) :
    exchangeWires * tensorMatrix A B = tensorMatrix B A * exchangeWires := by
  rw [exchangeWires_eq, tensorMatrix, tensorMatrix, reindex_apply, reindex_apply, reindex_apply, submatrix_mul_equiv,
    submatrix_mul_equiv, PEquiv.toMatrix_toPEquiv_mul, PEquiv.mul_toMatrix_toPEquiv]
  congr 1
  ext ⟨a, b⟩ ⟨c, d⟩
  exact mul_comm (A b c) (B a d)

/-- A tensor product after the exchange has the values of the wires exchanged. -/
lemma tensorMatrix_mul_exchangeWires (A B : Matrix Bool Bool ℂ) (a b c d : Bool) :
    (tensorMatrix A B * exchangeWires) (pairIndex (a, b)) (pairIndex (c, d)) = A a d * B b c := by
  rw [exchangeWires_eq, tensorMatrix, reindex_apply, reindex_apply, submatrix_mul_equiv, PEquiv.mul_toMatrix_toPEquiv]
  simp

/-- Exchanging the wires twice does nothing. -/
@[simp] lemma exchangeWires_mul_self : exchangeWires * exchangeWires = 1 := by
  have hinvolutive : (Equiv.prodComm Bool Bool).trans (Equiv.prodComm Bool Bool) = Equiv.refl (Bool × Bool) := rfl
  rw [exchangeWires_eq, reindex_apply, submatrix_mul_equiv, ← PEquiv.toMatrix_trans, ← Equiv.toPEquiv_trans, hinvolutive,
    Equiv.toPEquiv_refl, PEquiv.toMatrix_refl, submatrix_one_equiv]

/-- The exchange of the wires has determinant minus one. -/
@[simp] lemma det_exchangeWires : exchangeWires.det = -1 := by
  rw [exchangeWires, ← Dense.toComplex_det4]
  simp [Dense.det4, swapMatrix]

end Exchange

/-- A tensor product of two matrices of determinant one. -/
def IsLocal (K : Matrix (Fin 4) (Fin 4) ℂ) : Prop :=
  ∃ L ∈ specialUnitaryGroup Bool ℂ, ∃ R ∈ specialUnitaryGroup Bool ℂ, K = tensorMatrix L R

/-- A local operator, after an exchange of the wires or without one. -/
def IsLocalOrExchanged (K : Matrix (Fin 4) (Fin 4) ℂ) : Prop := IsLocal K ∨ ∃ M, IsLocal M ∧ K = M * exchangeWires

section Local

variable {K M : Matrix (Fin 4) (Fin 4) ℂ}

/-- Doing nothing is local. -/
lemma isLocal_one : IsLocal 1 := ⟨1, one_mem _, 1, one_mem _, tensorMatrix_one.symm⟩

/-- Local operators compose. -/
lemma IsLocal.mul (hK : IsLocal K) (hM : IsLocal M) : IsLocal (K * M) := by
  obtain ⟨L, hL, R, hR, rfl⟩ := hK
  obtain ⟨L', hL', R', hR', rfl⟩ := hM
  exact ⟨L * L', mul_mem hL hL', R * R', mul_mem hR hR', tensorMatrix_mul L R L' R'⟩

/-- A local operator has determinant one. -/
lemma IsLocal.det (hK : IsLocal K) : K.det = 1 := by
  obtain ⟨L, hL, R, hR, rfl⟩ := hK
  rw [det_tensorMatrix, (mem_specialUnitaryGroup_iff.1 hL).2, (mem_specialUnitaryGroup_iff.1 hR).2, one_pow, one_mul]

/-- An exchange of the wires moves to the right of a local operator. -/
lemma IsLocal.exchange_mul (hK : IsLocal K) : ∃ M, IsLocal M ∧ exchangeWires * K = M * exchangeWires := by
  obtain ⟨L, hL, R, hR, rfl⟩ := hK
  exact ⟨tensorMatrix R L, ⟨R, hR, L, hL, rfl⟩, exchangeWires_mul L R⟩

/-- Local operators and exchanges compose. -/
lemma IsLocalOrExchanged.mul (hK : IsLocalOrExchanged K) (hM : IsLocalOrExchanged M) : IsLocalOrExchanged (K * M) := by
  rcases hK with hK | ⟨K, hK, rfl⟩
  · rcases hM with hM | ⟨M, hM, rfl⟩
    · exact .inl (hK.mul hM)
    · exact .inr ⟨K * M, hK.mul hM, (Matrix.mul_assoc K M _).symm⟩
  · rcases hM with hM | ⟨M, hM, rfl⟩
    · obtain ⟨M', hM', hswap⟩ := hM.exchange_mul
      refine .inr ⟨K * M', hK.mul hM', ?_⟩
      rw [Matrix.mul_assoc, hswap, Matrix.mul_assoc]
    · obtain ⟨M', hM', hswap⟩ := hM.exchange_mul
      refine .inl ?_
      -- the two exchanges meet and cancel
      rw [Matrix.mul_assoc, ← Matrix.mul_assoc _ M, hswap, Matrix.mul_assoc, exchangeWires_mul_self, Matrix.mul_one]
      exact hK.mul hM'

/-- An operator of determinant one that is local up to an exchange of the wires is local. -/
lemma IsLocalOrExchanged.isLocal (hK : IsLocalOrExchanged K) (hdet : K.det = 1) : IsLocal K := by
  rcases hK with hK | ⟨M, hM, rfl⟩
  · exact hK
  · rw [det_mul, hM.det, det_exchangeWires] at hdet
    norm_num at hdet

end Local

end CircuitSynthesis.TwoQubit
