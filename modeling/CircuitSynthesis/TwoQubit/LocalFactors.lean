import CircuitSynthesis.Matrix2
import CircuitSynthesis.SynthesisError

/-!
# Local factors

In the magic basis the real orthogonal matrices of determinant one are the tensor products of two one-qubit matrices of
determinant one. `LocalFactors.ofOrthogonal` takes such a matrix apart.

In `qsynth-compile`: `LocalFactors` is `So4Factors`, `ofOrthogonal` is `decompose_so4`, `magicBasis`, `swapMatrix` and
`tensor` are `magic_basis`, `swap_matrix` and `kron2`, and `productTolerance` is `PRODUCT_TOLERANCE`.
-/

namespace CircuitSynthesis.TwoQubit

variable {R : Type} [Scalar R]

/-- The magic basis, its states as columns. -/
def magicBasis : Dense (Amplitude R) 4 4 :=
  let o : Amplitude R := 0
  let r : Amplitude R := ⟨Scalar.sqrtHalf, 0⟩
  let i : Amplitude R := ⟨0, Scalar.sqrtHalf⟩
  ⟨#v[#v[r, i, o, o], #v[o, o, i, r], #v[o, o, i, -r], #v[r, -i, o, o]]⟩

def swapMatrix : Dense (Amplitude R) 4 4 :=
  .ofFn fun r c => if (r.val &&& 1) <<< 1 ||| r.val >>> 1 = c.val then 1 else 0

/-- The tensor product, its left factor on wire one. -/
def tensor (left right : Matrix2 R) : Dense (Amplitude R) 4 4 := left.toDense.kron right.toDense

/-- A pair of one-qubit matrices of determinant one, up to a phase and an exchange of wires. -/
structure LocalFactors (R : Type) where
  /-- The factor on wire one. -/
  left : Matrix2 R
  /-- The factor on wire zero. -/
  right : Matrix2 R
  phase : R
  /-- Whether an exchange of the wires comes before the factors. -/
  swapped : Bool
  deriving DecidableEq

namespace LocalFactors

/-- The operator that the factors stand for. -/
def matrix (f : LocalFactors R) : Dense (Amplitude R) 4 4 :=
  let product := (tensor f.left f.right).scale (Amplitude.phase f.phase)
  if f.swapped then product.dot swapMatrix else product

/-- The Frobenius error accepted when a product is rebuilt. -/
def productTolerance : R := 1e-8

/-- The block of two rows and two columns on the left edge whose first row is given. -/
def leftBlock (k : Dense (Amplitude R) 4 4) (row : Nat) (h : row + 1 < 4) : Matrix2 R :=
  ⟨k.get ⟨row, by omega⟩ 0, k.get ⟨row, by omega⟩ 1, k.get ⟨row + 1, h⟩ 0, k.get ⟨row + 1, h⟩ 1⟩

/-- The last column negated. -/
def negateLast (q : Dense R 4 4) : Dense R 4 4 := .ofFn fun r c => if c = 3 then -q.get r c else q.get r c

/-- Takes a tensor product apart, given as a matrix in the computational basis. The right factor is read off a block
that can be inverted and scaled to determinant one; what remains once it is taken out is the left one. -/
def ofTensor (k : Dense (Amplitude R) 4 4) (swapped : Bool) : Except (SynthesisError R) (LocalFactors R) := do
  let upper := leftBlock k 0 (by omega)
  let block := if upper.det.norm < (0.1 : R) then leftBlock k 2 (by omega) else upper
  let det := block.det
  if det.norm < (1e-12 : R) then throw (.degenerate .noInvertibleBlock)
  let root := det.sqrt
  let right := block.map (· / root)
  let stripped := k.dot (tensor .identity right.dagger)
  let rest : Matrix2 R := ⟨stripped.get 0 0, stripped.get 0 2, stripped.get 2 0, stripped.get 2 2⟩
  let detRest := rest.det
  if detRest.norm < (0.9 : R) then throw (.degenerate (.notProduct detRest.norm))
  let phase := detRest.arg / Scalar.two
  let left := rest.scale (Amplitude.polar (1 / Scalar.sqrt detRest.norm) (-phase))
  let error := (k - (tensor left right).scale (Amplitude.phase phase)).norm
  if !Scalar.isFinite error || productTolerance < error then throw (.degenerate (.productResidual error))
  return ⟨left, right, phase, swapped⟩

/-- The local factors of a real orthogonal matrix taken out of the magic basis. A reflection has its last column negated
first, which is an exchange of the wires outside the magic basis. -/
def ofOrthogonal (q : Dense R 4 4) : Except (SynthesisError R) (LocalFactors R) := do
  let det := q.det4
  if !Scalar.isFinite det || 1e-6 < Scalar.abs (Scalar.abs det - 1) then throw (.degenerate (.notOrthogonal det))
  let swapped : Bool := det < 0
  let rotation := if swapped then negateLast q else q
  ofTensor ((magicBasis.dot rotation.complexify).dot magicBasis.dagger) swapped

end LocalFactors

end CircuitSynthesis.TwoQubit
