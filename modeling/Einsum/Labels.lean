import Einsum.Label

/-! Label lists: the labels of one tensor, axis by axis.
A repeated label stands for a diagonal, so a list may name a label twice; `distinct`
keeps the first axis of each label and `diagonals` the axes that fall together. -/

namespace Einsum

abbrev Labels := List Label

/-- The axes of one tensor that carry one label, ascending. -/
structure AxisGroup where
  label : Label
  axes : List Nat
deriving DecidableEq, Repr

namespace Labels

def distinct (labels : Labels) : Labels := labels.eraseDups

def hasDuplicates : Labels → Bool
  | [] => false
  | c :: rest => rest.contains c || hasDuplicates rest

def axesOf (labels : Labels) (c : Label) : List Nat :=
  labels.zipIdx.filterMap fun (d, axis) => if d = c then some axis else none

/-- The labels with more than one axis, by first occurrence. -/
def diagonals (labels : Labels) : List AxisGroup :=
  (distinct labels).filterMap fun c =>
    let axes := labels.axesOf c
    if 1 < axes.length then some ⟨c, axes⟩ else none

/-- The first axis of each label of `target`, if there is one for all. -/
def axesFor? (labels target : Labels) : Option (List Nat) :=
  target.mapM fun c => labels.idxOf? c

def insertAscending (c : Label) : Labels → Labels
  | [] => [c]
  | d :: rest =>
    if c < d then c :: d :: rest
    else if c = d then d :: rest
    else d :: insertAscending c rest

/-- The set of labels, by ascending code point. -/
def ascending (labels : Labels) : Labels := labels.foldr insertAscending []

def text (labels : Labels) : String := String.ofList labels

theorem mem_insertAscending {c d : Label} {labels : Labels} :
    c ∈ insertAscending d labels ↔ c = d ∨ c ∈ labels := by
  induction labels with
  | nil => simp [insertAscending]
  | cons e rest ih => grind [insertAscending]

theorem mem_ascending {c : Label} {labels : Labels} : c ∈ ascending labels ↔ c ∈ labels := by
  induction labels with
  | nil => simp [ascending]
  | cons d rest ih =>
    simp only [ascending, List.foldr_cons] at ih ⊢
    rw [mem_insertAscending, ih, List.mem_cons]

theorem mem_distinct {c : Label} {labels : Labels} : c ∈ distinct labels ↔ c ∈ labels :=
  List.mem_eraseDups

end Labels

end Einsum
