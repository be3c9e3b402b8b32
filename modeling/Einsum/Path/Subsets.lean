import Einsum.Path.Cheapest

/-! The best contraction tree, by a table over all sets of terms.
A set is the number whose bit `i` says whether term `i` is in it, so that its proper parts
are smaller numbers and the table can be filled in ascending order. The tensor of a set
carries the labels of the set that the output or a term outside it needs. -/

namespace Einsum

/-- Which tensors are contracted with which, leaves being terms. -/
inductive Tree where
  | term (id : Nat)
  | join (left right : Tree)
deriving DecidableEq, Repr

structure SubsetBest where
  cost : Cost
  labels : Labels
  tree : Tree
deriving Repr

/-- Both halves of every split of a set in two; the left halves are the smaller numbers
and descend. -/
def halves (set : Nat) : List (Nat × Nat) :=
  (List.range set).reverse.filterMap fun left =>
    let right := set ^^^ left
    if left &&& set = left ∧ 0 < left ∧ left < right then some (left, right) else none

namespace Network

def subsetLimit : Nat := 12

/-- The labels that the tensor of a set carries, ascending. -/
def setLabels (network : Network) (set : Nat) : Labels :=
  let (inside, outside) := network.terms.zipIdx.partition fun (_, i) => set.testBit i
  let needed := network.output ++ outside.flatMap (·.1)
  Labels.ascending ((inside.flatMap (·.1)).filter fun c => needed.contains c)

def joinBest (network : Network) (model : CostModel) (labels : Labels) (left right : SubsetBest) :
    SubsetBest :=
  let union := network.sizes.volume (Labels.ascending (left.labels ++ right.labels))
  let step := model.contraction (network.sizes.volume left.labels)
    (network.sizes.volume right.labels) union (network.sizes.volume labels)
  ⟨left.cost + right.cost + step, labels, .join left.tree right.tree⟩

/-- The best way for `set`, when `table` has it for every smaller number. A single term
keeps all its labels. A split with a half that `table` lacks would be left out; in the table
that is filled for a set of the terms there is none, as `Network.exists_entries` says. -/
def bestOf (network : Network) (model : CostModel) (table : Array (Option SubsetBest))
    (set : Nat) : Option SubsetBest :=
  match network.terms.zipIdx.find? fun (_, i) => 1 <<< i = set with
  | some (term, i) => some ⟨.zero, Labels.ascending term, .term i⟩
  | none =>
    let labels := network.setLabels set
    let candidates := (halves set).filterMap fun (left, right) => do
      return network.joinBest model labels (← table[left]?.join) (← table[right]?.join)
    candidates.minOn? fun best => best.cost.rank

/-- The best way for every set below `count`. -/
def bestTable (network : Network) (model : CostModel) :
    (count : Nat) → Array (Option SubsetBest)
  | 0 => #[]
  | count + 1 =>
    let table := network.bestTable model count
    table.push (network.bestOf model table count)

def bestTree? (network : Network) (model : CostModel) : Option Tree :=
  let count := 1 <<< network.terms.length
  (network.bestTable model count)[count - 1]?.join.map (·.tree)

/-- The steps of a tree, those of the left branch first, and the number of its tensor. -/
def contractTree (network : Network) (model : CostModel) (pool : Pool) :
    Tree → Except Error (Nat × Pool × List Contraction)
  | .term id => .ok (id, pool, [])
  | .join left right => do
    let (a, pool, leftSteps) ← network.contractTree model pool left
    let (b, pool, rightSteps) ← network.contractTree model pool right
    let (step, _) ← network.weigh model pool a b
    let (made, pool) ← pool.contract a b step.result
    return (made, pool, leftSteps ++ rightSteps ++ [step])

/-- The path of the best tree; too many terms are contracted cheapest pair first. -/
def best (network : Network) (model : CostModel) : Except Error Path :=
  if subsetLimit < network.terms.length then network.cheapestFirst model
  else
    match network.bestTree? model with
    | none => .ok .empty
    | some tree => do
      let (_, _, steps) ← network.contractTree model (.ofTerms network.terms) tree
      return ⟨steps⟩

end Network

end Einsum
