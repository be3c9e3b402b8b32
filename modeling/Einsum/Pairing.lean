import Einsum.Labels

/-! How the labels of two tensors fall apart when the tensors are contracted.
Labels of one side stay. A shared label stays once, as a batch axis, while something else
needs it, and is summed otherwise. -/

namespace Einsum

structure Pairing where
  batch : Labels
  summed : Labels
  leftOnly : Labels
  rightOnly : Labels
deriving DecidableEq, Repr

namespace Pairing

def result (pairing : Pairing) : Labels := pairing.batch ++ pairing.leftOnly ++ pairing.rightOnly

/-- Shared labels stay where `keep` says so; each part keeps the order of its side. -/
def split (left right : Labels) (keep : Label → Bool) : Pairing where
  batch := left.filter fun c => right.contains c && keep c
  summed := left.filter fun c => right.contains c && !keep c
  leftOnly := left.filter fun c => !right.contains c
  rightOnly := right.filter fun c => !left.contains c

variable {left right : Labels} {keep : Label → Bool} {c : Label}

theorem mem_batch_split :
    c ∈ (split left right keep).batch ↔ c ∈ left ∧ c ∈ right ∧ keep c = true := by
  simp [split]

theorem mem_summed_split :
    c ∈ (split left right keep).summed ↔ c ∈ left ∧ c ∈ right ∧ keep c = false := by
  simp [split]

theorem mem_leftOnly_split : c ∈ (split left right keep).leftOnly ↔ c ∈ left ∧ c ∉ right := by
  simp [split]

theorem mem_rightOnly_split : c ∈ (split left right keep).rightOnly ↔ c ∈ right ∧ c ∉ left := by
  simp [split]

end Pairing

end Einsum
