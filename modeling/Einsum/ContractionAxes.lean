import Einsum.Pairing

/-! The axes that take part in a contraction, in the roles that their labels play. -/

namespace Einsum

structure ContractionAxes where
  /-- A left and a right axis that stay as one. -/
  batch : List (Nat × Nat)
  /-- A left and a right axis that are multiplied and summed. -/
  summed : List (Nat × Nat)
  leftFree : List Nat
  rightFree : List Nat
deriving DecidableEq, Repr

namespace ContractionAxes

/-- No axes are paired, so that every entry of one side meets every entry of the other. -/
def isOuterProduct (axes : ContractionAxes) : Bool := axes.batch.isEmpty && axes.summed.isEmpty

def leftOrder (axes : ContractionAxes) : List Nat :=
  axes.batch.map (·.1) ++ axes.leftFree ++ axes.summed.map (·.1)

def rightOrder (axes : ContractionAxes) : List Nat :=
  axes.batch.map (·.2) ++ axes.summed.map (·.2) ++ axes.rightFree

def ofPairing (left right : Labels) (pairing : Pairing) : ContractionAxes :=
  let both c := do return (← left.idxOf? c, ← right.idxOf? c)
  { batch := pairing.batch.filterMap both
    summed := pairing.summed.filterMap both
    leftFree := pairing.leftOnly.filterMap fun c => left.idxOf? c
    rightFree := pairing.rightOnly.filterMap fun c => right.idxOf? c }

end ContractionAxes

end Einsum
