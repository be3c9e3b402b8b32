import Einsum.Cost
import Einsum.Pool

/-! Contraction paths of a tensor network.
A path names, step by step, the two tensors to contract; the terms are numbered from zero
and each step makes the next number. -/

namespace Einsum

/-- Terms to be contracted to one tensor whose labels are wanted in `output`. -/
structure Network where
  terms : List Labels
  sizes : SizeTable
  output : Labels
deriving DecidableEq, Repr

structure Contraction where
  left : Nat
  right : Nat
  labels : Pairing
  flops : Estimate
deriving DecidableEq, Repr

def Contraction.result (step : Contraction) : Labels := step.labels.result

structure Path where
  steps : List Contraction
deriving DecidableEq, Repr

namespace Path

def empty : Path := ⟨[]⟩

def flops (path : Path) : Estimate := Estimate.sum (path.steps.map (·.flops))

def pairs (path : Path) : List (Nat × Nat) := path.steps.map fun step => (step.left, step.right)

end Path

namespace Network

def weigh (network : Network) (model : CostModel) (pool : Pool) (a b : Nat) :
    Except Error (Contraction × Cost) := do
  let pairing ← pool.pairing a b network.output
  let cost := model.pairwise network.sizes (← pool.labels a) (← pool.labels b) pairing
  return (⟨a, b, pairing, cost.flops⟩, cost)

/-- Contracts tensor `acc` with the listed ones, one after the other. -/
def foldInto (network : Network) (model : CostModel) (pool : Pool) (acc : Nat) :
    List Nat → Except Error (List Contraction)
  | [] => .ok []
  | next :: rest => do
    let (step, _) ← network.weigh model pool acc next
    let (made, pool) ← pool.contract acc next step.result
    return step :: (← network.foldInto model pool made rest)

/-- The terms in their own order: `((t0 t1) t2) t3`. -/
def leftToRight (network : Network) (model : CostModel) : Except Error Path := do
  let rest := List.range' 1 (network.terms.length - 1)
  return ⟨← network.foldInto model (.ofTerms network.terms) 0 rest⟩

end Network

end Einsum
