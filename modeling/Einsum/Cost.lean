import Einsum.Pairing
import Einsum.SizeTable

/-! Cost of a contraction: operations, entries read or written, and a total in which each
entry weighs `alpha` operations. Costs are compared by their totals alone. -/

namespace Einsum

structure Cost where
  flops : Estimate
  memory : Estimate
  total : Estimate
deriving DecidableEq, Repr

structure CostModel where
  alpha : Estimate
deriving DecidableEq, Repr

namespace Cost

def weighted (flops memory alpha : Estimate) : Cost := ⟨flops, memory, flops + memory * alpha⟩

def zero : Cost := ⟨0, 0, 0⟩

/-- The greatest cost, at which all counts are clamped. -/
def infinite : Cost := ⟨.infinite, .infinite, .infinite⟩

instance : Add Cost := ⟨fun a b => ⟨a.flops + b.flops, a.memory + b.memory, a.total + b.total⟩⟩

def rank (cost : Cost) : Nat := cost.total.toNat

/-- The order of costs is that of their ranks, by which the searches choose. -/
def order (a b : Cost) : Ordering := compare a.rank b.rank

theorem order_eq_lt_iff {a b : Cost} : a.order b = .lt ↔ a.rank < b.rank := Nat.compare_eq_lt

theorem isLE_order_iff {a b : Cost} : (a.order b).isLE ↔ a.rank ≤ b.rank := Nat.isLE_compare

theorem isLE_order_infinite (cost : Cost) : (cost.order infinite).isLE :=
  isLE_order_iff.2 cost.total.toNat_le

end Cost

namespace CostModel

def cpu : CostModel := ⟨8⟩

def flopsOnly : CostModel := ⟨0⟩

/-- Each index of the union of both sides takes a multiplication and an addition. -/
def contraction (model : CostModel) (left right union result : Estimate) : Cost :=
  .weighted (union * 2) (left + right + result) model.alpha

def pairwise (model : CostModel) (sizes : SizeTable) (left right : Labels) (pairing : Pairing) :
    Cost :=
  let result := sizes.volume pairing.result
  model.contraction (sizes.volume left) (sizes.volume right)
    (result * sizes.volume pairing.summed) result

end CostModel

end Einsum
