import Einsum.Equation.Parser
import Einsum.Proofs.BestTrees
import Einsum.SizedEquation

/-! Paths when operations alone count.
Without a weight on memory the total cost of a path is its number of operations. So on terms
without private labels the best tree takes no more of them than the written order does. A
private label is kept by the contractions but not by the labels of a set, and then the tree
that looks best can take more. -/

namespace Einsum

namespace Network

variable {network : Network} {pool pool' : Pool} {steps : List Contraction}

theorem total_pairwise_flopsOnly (sizes : SizeTable) (left right : Labels) (pairing : Pairing) :
    (CostModel.flopsOnly.pairwise sizes left right pairing).total =
      (CostModel.flopsOnly.pairwise sizes left right pairing).flops := by
  rw [CostModel.pairwise, CostModel.contraction, Cost.weighted]
  exact (congrArg _ (Estimate.mul_zero _)).trans (Estimate.add_zero _)

theorem Replays.expense_flopsOnly (replays : Replays network .flopsOnly pool steps pool')
    (valid : pool.Valid) :
    ∃ cost, network.expense .flopsOnly pool steps = .ok cost ∧ cost.total = Path.flops ⟨steps⟩ := by
  induction replays with
  | nil => exact ⟨.zero, rfl, rfl⟩
  | @cons pool pool' step cost steps left right ne weigh replays ih =>
    obtain ⟨rest, hrest, total⟩ := ih (valid.contracted _ _ _)
    obtain ⟨operations, priced⟩ := weighed valid left right weigh
    have flops : cost.total = step.flops := by
      rw [operations, priced]
      exact total_pairwise_flopsOnly ..
    refine ⟨cost + rest, expense_cons valid left right weigh hrest, ?_⟩
    rw [Path.flops, List.map_cons, Estimate.sum_cons, ← flops, ← Path.flops, ← total]
    rfl

/-- Terms without private labels take no more operations along the best path than in the
written order. -/
theorem best_flops_le_leftToRight {network : Network} (reduced : network.Reduced)
    (terms : network.terms ≠ []) (few : network.terms.length ≤ subsetLimit) :
    ∃ best fixed, network.best .flopsOnly = .ok best ∧
      network.leftToRight .flopsOnly = .ok fixed ∧ best.flops ≤ fixed.flops := by
  have valid := Pool.ofTerms_valid network.terms
  obtain ⟨best, cost, hbest, hcost, least⟩ := reduced.best_cheapest .flopsOnly terms few
  obtain ⟨best', pool, hbest', replays, -⟩ := best_replays .flopsOnly terms
  obtain rfl : best = best' := Except.ok.inj (hbest.symm.trans hbest')
  obtain ⟨fixed, pool', hfixed, replays', -, one⟩ := path_replays .flopsOnly .leftToRight terms
  obtain ⟨cost', hcost', le⟩ := least _ pool' replays' one
  obtain ⟨_, spent, total⟩ := replays.expense_flopsOnly valid
  obtain ⟨_, spent', total'⟩ := replays'.expense_flopsOnly valid
  obtain rfl := Except.ok.inj (hcost.symm.trans spent)
  obtain rfl := Except.ok.inj (hcost'.symm.trans spent')
  refine ⟨best, fixed, hbest, hfixed, ?_⟩
  rw [Cost.rank, Cost.rank, total, total'] at le
  exact le

/-- In `ij,jk,ki->` every label is shared. -/
theorem best_flops_le_leftToRight_cycle :
    let network : Network := ⟨[['i', 'j'], ['j', 'k'], ['k', 'i']],
      ⟨[('i', 2), ('j', 300), ('k', 4)]⟩, []⟩
    network.Reduced ∧ network.terms ≠ [] ∧ network.terms.length ≤ subsetLimit ∧
      ∃ best fixed, network.best .flopsOnly = .ok best ∧
        network.leftToRight .flopsOnly = .ok fixed ∧ best.flops ≤ fixed.flops := by
  intro network
  have reduced : network.Reduced := ⟨by simp [network], by simp [network]⟩
  have terms : network.terms ≠ [] := by decide
  have few : network.terms.length ≤ subsetLimit := by decide
  exact ⟨reduced, terms, few, best_flops_le_leftToRight reduced terms few⟩

/-- In `a,b,c->a` the labels `b` and `c` are private. The search takes `a` and `b` to leave
`a` alone, so that the written order looks dearer than it is. -/
theorem not_best_flops_le_leftToRight :
    let equation : Equation := ⟨[['a'], ['b'], ['c']], some ['a']⟩
    let shapes := [[2], [2], [3]]
    let sized : SizedEquation := ⟨equation, shapes, ⟨[('a', 2), ('b', 2), ('c', 3)]⟩, ['a']⟩
    let network : Network := ⟨equation.inputs, sized.sizes, sized.output⟩
    Equation.ofText "a,b,c->a" 3 = .ok equation ∧ equation.fit shapes = .ok sized ∧
      (∀ labels ∈ equation.inputs, labels.Nodup) ∧
      ¬∃ best fixed, network.best .flopsOnly = .ok best ∧
        network.leftToRight .flopsOnly = .ok fixed ∧ best.flops ≤ fixed.flops := by
  intro equation shapes sized network
  refine ⟨by rfl, by rfl, by decide, ?_⟩
  rintro ⟨best, fixed, hbest, hfixed, le⟩
  have chosen : (network.best .flopsOnly).map (·.flops.toNat) = .ok 36 := by decide +kernel
  have written : (network.leftToRight .flopsOnly).map (·.flops.toNat) = .ok 32 := by decide +kernel
  rw [hbest] at chosen
  rw [hfixed] at written
  have le : best.flops.toNat ≤ fixed.flops.toNat := le
  have chosen : best.flops.toNat = 36 := Except.ok.inj chosen
  have written : fixed.flops.toNat = 32 := Except.ok.inj written
  omega

end Network

end Einsum
