import Einsum.ContractionAxes
import Einsum.Tensor.Rearrange

/-! Contraction of two tensors as a batch of matrix products.
The left side is laid out as batch, rows, inner and the right side as batch, inner,
columns; the product has batch, rows, columns and takes its axes from there.
Both the product and its final shape have to be addressable. Where the final shape is,
the product is too, so a caller has to look at the final shape only. -/

namespace Einsum

/-- The sizes of the axes of a contraction, by the part they play. -/
structure ContractionSizes where
  batch : List Nat
  rows : List Nat
  inner : List Nat
  columns : List Nat
deriving DecidableEq, Repr

namespace ContractionSizes

def ofShapes? (leftShape rightShape : List Nat) (axes : ContractionAxes) :
    Option ContractionSizes := do
  return {
    batch := ← sizesAt? leftShape (axes.batch.map (·.1))
    rows := ← sizesAt? leftShape axes.leftFree
    inner := ← sizesAt? leftShape (axes.summed.map (·.1))
    columns := ← sizesAt? rightShape axes.rightFree }

/-- The shape of the left side as a batch of matrices. -/
def leftBlock (sizes : ContractionSizes) : List Nat :=
  [capacity sizes.batch, capacity sizes.rows, capacity sizes.inner]

def rightBlock (sizes : ContractionSizes) : List Nat :=
  [capacity sizes.batch, capacity sizes.inner, capacity sizes.columns]

def block (sizes : ContractionSizes) : List Nat :=
  [capacity sizes.batch, capacity sizes.rows, capacity sizes.columns]

def result (sizes : ContractionSizes) : List Nat := sizes.batch ++ sizes.rows ++ sizes.columns

theorem span_block_le (sizes : ContractionSizes) : span sizes.block ≤ span sizes.result := by
  have bound (shape : List Nat) : max 1 (capacity shape) ≤ span shape :=
    Nat.max_le.2 ⟨span_pos shape, capacity_le_span shape⟩
  simpa [block, result, span, Nat.mul_assoc] using
    Nat.mul_le_mul (bound sizes.batch) (Nat.mul_le_mul (bound sizes.rows) (bound sizes.columns))

theorem isAddressable_block {sizes : ContractionSizes} (h : isAddressable sizes.result) :
    isAddressable sizes.block := by
  simp only [isAddressable, decide_eq_true_eq] at h ⊢
  exact Nat.lt_of_le_of_lt sizes.span_block_le h

/-- The product comes first: if even that cannot be addressed, the contraction breaks off. That
the result may be looked at before it is `isAddressable_block`. -/
def requireAddressable (sizes : ContractionSizes) : Except Error Unit :=
  if isAddressable sizes.result then .ok ()
  else if isAddressable sizes.block then .error (.backend .oversizedResult)
  else .error (.fault .oversizedProduct)

end ContractionSizes

namespace Tensor

variable {α : Type}

/-- Paired axes exist on both sides and have equal sizes. -/
def requirePairs (leftShape rightShape : List Nat) : List (Nat × Nat) → Except Error Unit
  | [] => .ok ()
  | (l, r) :: rest =>
    match leftShape[l]?, rightShape[r]? with
    | some m, some n =>
      if m = n then requirePairs leftShape rightShape rest
      else .error (.backend (.unpairable l r leftShape rightShape))
    | _, _ => .error (.backend (.unpairable l r leftShape rightShape))

/-- The matrix products of the blocks of two tensors of rank three. -/
def batchedProduct? [Zero α] [Add α] [Mul α] (a b : Tensor α) (sizes : ContractionSizes) :
    Option (Tensor α) :=
  tabulate? sizes.block fun
    | [i, r, c] =>
      (List.range (capacity sizes.inner)).foldlM
        (fun acc j => do return acc + (← a.get? [i, r, j]) * (← b.get? [i, j, c])) 0
    | _ => none

/-- The product under axes that name each axis of either side once. -/
def contracted? [Zero α] [Add α] [Mul α] (left right : Tensor α) (axes : ContractionAxes)
    (sizes : ContractionSizes) : Option (Tensor α) := do
  let a ← (← left.permuted? axes.leftOrder).reshape? sizes.leftBlock
  let b ← (← right.permuted? axes.rightOrder).reshape? sizes.rightBlock
  (← batchedProduct? a b sizes).reshape? sizes.result

def contract [Zero α] [Add α] [Mul α] (left right : Tensor α) (axes : ContractionAxes) :
    Except Error (Tensor α) := do
  requirePairs left.shape right.shape (axes.batch ++ axes.summed)
  requirePermutation axes.leftOrder left.rank
  requirePermutation axes.rightOrder right.rank
  match ContractionSizes.ofShapes? left.shape right.shape axes with
  | none => .error (.fault .unreadableEntry)
  | some sizes => do
    sizes.requireAddressable
    orFault (contracted? left right axes sizes)

end Tensor

end Einsum
