import Einsum.Tensor.Contract
import Einsum.Tensor.Sum

/-! What the evaluation of plans asks of tensors.
Plans decide which primitives run; a backend says what each of them does to its tensors.
`Tensor.backend` is the one on dense tensors. -/

namespace Einsum

/-- Primitives on tensors of type `τ` with entries of type `α`. -/
structure Backend (τ α : Type) where
  shape : τ → List Nat
  scalar : α → τ
  /-- Collapses each group of axes onto its first axis. -/
  diagonal : τ → List (List Nat) → Except Error τ
  /-- Reorders axes: result axis `k` is the `k`th listed axis. -/
  permute : τ → List Nat → Except Error τ
  sumOver : τ → List Nat → Except Error τ
  /-- Result axes are the batch axes, the free left ones and the free right ones. -/
  contract : τ → τ → ContractionAxes → Except Error τ

def Backend.copy {τ α : Type} (backend : Backend τ α) (t : τ) : Except Error τ :=
  backend.permute t (List.range (backend.shape t).length)

def Tensor.backend (α : Type) [Zero α] [Add α] [Mul α] : Backend (Tensor α) α where
  shape := Tensor.shape
  scalar := Tensor.scalar
  diagonal := Tensor.diagonal
  permute := Tensor.permute
  sumOver := Tensor.sumOver
  contract := Tensor.contract

end Einsum
