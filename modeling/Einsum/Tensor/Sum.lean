import Einsum.Tensor

/-! Sums over axes. Each sum starts at zero and adds the entries in order of the coordinate
that disappears. -/

namespace Einsum.Tensor

variable {α : Type} [Zero α] [Add α]

def sumAxis? (t : Tensor α) (axis : Nat) : Option (Tensor α) := do
  let size ← t.shape[axis]?
  tabulate? (t.shape.eraseIdx axis) fun index =>
    (List.range size).foldlM
      (fun acc i => (t.get? (index.insertIdx axis i)).map (acc + ·)) 0

/-- Sum over the listed axes, each once: the last axis first, so that the numbers of the
others still hold. -/
def sumOver (t : Tensor α) (axes : List Nat) : Except Error (Tensor α) :=
  let descending := (axes.mergeSort fun a b => b ≤ a).eraseDups
  match descending.head? with
  | none => .ok t
  | some largest =>
    if t.rank ≤ largest then .error (.backend (.reductionAxis largest t.rank))
    else orFault (descending.foldlM sumAxis? t)

end Einsum.Tensor
