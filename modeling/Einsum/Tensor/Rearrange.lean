import Einsum.Tensor

/-! Primitives that move entries and compute none: reordering axes and taking diagonals. -/

namespace Einsum

def sizesAt? (shape axes : List Nat) : Option (List Nat) := axes.mapM fun axis => shape[axis]?

/-- Whether each listed axis has a mark that is not set yet. -/
def marksOnce (marks : List Bool) : List Nat → Bool
  | [] => true
  | axis :: rest =>
    match marks[axis]? with
    | some false => marksOnce (marks.set axis true) rest
    | _ => false

def isPermutation (axes : List Nat) (rank : Nat) : Bool :=
  axes.length == rank && marksOnce (List.replicate rank false) axes

def requirePermutation (axes : List Nat) (rank : Nat) : Except Error Unit :=
  if isPermutation axes rank then .ok () else .error (.backend (.notPermutation axes rank))

namespace Tensor

variable {α : Type}

/-- Result axis `k` is axis `axes[k]` of `t`, for a list that names each axis once. -/
def permuted? (t : Tensor α) (axes : List Nat) : Option (Tensor α) := do
  t.gather? (← sizesAt? t.shape axes) ((List.range t.rank).map fun axis => axes.idxOf axis)

def permute (t : Tensor α) (axes : List Nat) : Except Error (Tensor α) := do
  requirePermutation axes t.rank
  orFault (t.permuted? axes)

/-- Lets `axis` collapse onto `first`, the first axis of its group. -/
def collapseAxis (shape : List Nat) (first : Nat) (targets : List (Option Nat)) (axis : Nat) :
    Except Error (List (Option Nat)) :=
  match shape[axis]?, shape[first]? with
  | some size, some firstSize =>
    if size ≠ firstSize then .error (.backend (.diagonalSizes first axis firstSize size))
    else if axis = first then .ok targets
    else .ok (targets.set axis (some first))
  | _, _ => .error (.backend (.diagonalAxis axis shape.length))

/-- Lets all axes of a group collapse onto its first one; a later group overrules. -/
def collapseGroup (shape : List Nat) (targets : List (Option Nat)) :
    List Nat → Except Error (List (Option Nat))
  | [] => .ok targets
  | first :: rest => (first :: rest).foldlM (collapseAxis shape first) targets

/-- The entries at which all axes of a group agree. The first axis of a group stays, in
order with the axes outside the groups; an axis whose target did not stay is read at the
first coordinate. -/
def diagonal (t : Tensor α) (groups : List (List Nat)) : Except Error (Tensor α) := do
  let targets ← groups.foldlM (collapseGroup t.shape) (List.replicate t.rank none)
  let targetOf axis := (targets[axis]?.join).getD axis
  let kept := (List.range t.rank).filter fun axis => targets[axis]?.join.isNone
  let source := (List.range t.rank).map fun axis => (kept.idxOf? (targetOf axis)).getD 0
  orFault do t.gather? (← sizesAt? t.shape kept) source

end Tensor

end Einsum
