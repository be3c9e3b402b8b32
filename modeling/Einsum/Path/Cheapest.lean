import Einsum.Path

/-! The path that contracts the cheapest pair at every step.
Of pairs that cost the same the first one wins, in the order of their places in the pool. -/

namespace Einsum

def pairsOf {α : Type} : List α → List (α × α)
  | [] => []
  | a :: rest => rest.map (fun b => (a, b)) ++ pairsOf rest

namespace Network

def cheapestStep (network : Network) (model : CostModel) (pool : Pool) :
    Except Error (Option Contraction) := do
  let weighed ← (pairsOf pool.live).mapM fun (a, b) => network.weigh model pool a b
  return (weighed.minOn? fun (_, cost) => cost.rank).map (·.1)

/-- At most `count` steps, each with the cheapest pair. -/
def cheapestSteps (network : Network) (model : CostModel) :
    (count : Nat) → Pool → Except Error (List Contraction)
  | 0, _ => .ok []
  | count + 1, pool => do
    match ← network.cheapestStep model pool with
    | none => return []
    | some step =>
      let (_, pool) ← pool.contract step.left step.right step.result
      return step :: (← network.cheapestSteps model count pool)

/-- Every step takes one tensor away, so one step less than there are terms. -/
def cheapestFirst (network : Network) (model : CostModel) : Except Error Path := do
  return ⟨← network.cheapestSteps model (network.terms.length - 1) (.ofTerms network.terms)⟩

end Network

end Einsum
