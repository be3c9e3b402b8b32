import Einsum.Proofs.BestTrees

/-! The table of sets tells what the steps of its trees cost.
An entry is reckoned from the ascending labels of its halves, before there is any pool; the
steps are weighed one after the other by the labels of the tensors at hand. Whichever branch
of the best tree is contracted, and whatever was contracted before it, its tensor carries the
labels of its set and its steps cost what the entry of the set says. -/

namespace Einsum

namespace Network

variable {network : Network} {model : CostModel} {pool pool' : Pool} {trees : List Tree}
  {steps : List Contraction} {tree left right : Tree} {set : Nat} {best : SubsetBest}

/-- What joining the tensors of a tree costs together. -/
def treeCost (network : Network) (model : CostModel) : Tree → Cost
  | .term _ => .zero
  | .join left right =>
    network.treeCost model left + network.treeCost model right + network.joinCost model left right

/-- The entry of a set in the table of all sets. -/
def memo? (network : Network) (model : CostModel) (set : Nat) : Option SubsetBest :=
  (network.bestTable model (1 <<< network.terms.length))[set]?.join

theorem memo?_eq (below : set < 2 ^ network.terms.length) :
    network.memo? model set = network.bestOf model (network.bestTable model set) set := by
  rw [memo?, Nat.one_shiftLeft, join_getElem?_bestTable below]

theorem below_of_memo? (h : network.memo? model set = some best) :
    set < 2 ^ network.terms.length := by
  have found := Option.join_eq_some_iff.1 h
  obtain ⟨below, -⟩ := Array.getElem?_eq_some_iff.1 found
  rwa [size_bestTable, Nat.one_shiftLeft] at below

theorem covers_of_memo? (pos : 0 < set) (h : network.memo? model set = some best) :
    best.tree.Covers set := by
  have below := below_of_memo? h
  obtain ⟨best', h', covers⟩ := exists_bestOf network model pos below
  rw [memo?_eq below] at h
  obtain rfl := Option.some.inj (h'.symm.trans h)
  exact covers

theorem Reckoned.cost_joinBest {half half' : Nat} {l r : SubsetBest}
    (half_mem : (half, half') ∈ halves set) (hl : network.Reckoned model half l)
    (hr : network.Reckoned model half' r) :
    (network.joinBest model (network.setLabels set) l r).cost =
      l.cost + r.cost + network.joinCost model l.tree r.tree :=
  congrArg (l.cost + r.cost + ·)
    (hl.carries.contraction_eq model hr.carries (hl.join half_mem hr).carries)

/-- An entry has the cost of its tree. -/
theorem Reduced.cost_of_memo? (reduced : network.Reduced) (pos : 0 < set)
    (h : network.memo? model set = some best) : best.cost = network.treeCost model best.tree := by
  have below := below_of_memo? h
  rw [memo?_eq below] at h
  refine (bestOf_induction (motive := fun set best => network.Reckoned model set best ∧
    best.cost = network.treeCost model best.tree) (fun id hlt => ?_) ?_ pos below h).2
  · exact ⟨reduced.reckoned_term model hlt, rfl⟩
  · rintro set half half' l r hm ⟨hl, costLeft⟩ ⟨hr, costRight⟩
    refine ⟨hl.join hm hr, ?_⟩
    rw [hl.cost_joinBest hm hr, costLeft, costRight]
    rfl

/-- The table has this tree for the set of its leaves. -/
def Chosen (network : Network) (model : CostModel) (tree : Tree) : Prop :=
  ∃ best, network.memo? model tree.set = some best ∧ best.tree = tree

/-- With a tree the table has chosen its branches. -/
theorem Chosen.branches (chosen : network.Chosen model (.join left right)) :
    network.Chosen model left ∧ network.Chosen model right := by
  obtain ⟨best, h, same⟩ := chosen
  have covers := covers_of_memo? (Tree.set_pos _) h
  rw [same] at covers
  have below := below_of_memo? h
  -- a set with a join for its tree has two terms, so the entry was one of the candidates
  rw [memo?_eq below, bestOf_several model _ covers.two_pow_ne] at h
  obtain ⟨half, half', l, r, hm, hl, hr, rfl⟩ := mem_candidates.1 (List.minOn?_mem h)
  obtain ⟨rfl, rfl⟩ := Tree.join.inj same
  have rightLt := lt_of_mem_halves hm
  obtain ⟨leftLt, -, -, pos, lt⟩ := mem_halves.1 hm
  rw [join_getElem?_bestTable leftLt, ← memo?_eq (by omega)] at hl
  rw [join_getElem?_bestTable rightLt, ← memo?_eq (by omega)] at hr
  refine ⟨⟨l, ?_, rfl⟩, ⟨r, ?_, rfl⟩⟩
  · rwa [(covers_of_memo? pos hl).set_eq]
  · rwa [(covers_of_memo? (by omega) hr).set_eq]

/-- The calls in which a tree is contracted, its own one included: the pool that each is
given and its branch. -/
inductive Emits (network : Network) (model : CostModel) : Pool → Tree → Pool → Tree → Prop
  | here {pool : Pool} {tree : Tree} : Emits network model pool tree pool tree
  | left {pool pool' : Pool} {left right tree : Tree}
      (emits : Emits network model pool left pool' tree) :
    Emits network model pool (.join left right) pool' tree
  | right {pool between pool' : Pool} {left right tree : Tree} {made : Nat}
      {steps : List Contraction}
      (first : network.contractTree model pool left = .ok (made, between, steps))
      (emits : Emits network model between right pool' tree) :
    Emits network model pool (.join left right) pool' tree

theorem Replays.expense_append (replays : Replays network model pool steps pool')
    (valid : pool.Valid) :
    ∃ cost, network.expense model pool steps = .ok cost ∧ ∀ steps' rest,
      network.expense model pool' steps' = .ok rest →
        network.expense model pool (steps ++ steps') = .ok (cost + rest) := by
  induction replays with
  | nil =>
    refine ⟨.zero, rfl, fun steps' rest h => ?_⟩
    rw [Cost.zero_add]
    exact h
  | @cons pool pool' step first steps left right ne weigh replays ih =>
    obtain ⟨cost, hcost, later⟩ := ih (valid.contracted _ _ _)
    refine ⟨first + cost, expense_cons valid left right weigh hcost, fun steps' rest h => ?_⟩
    rw [Cost.add_assoc]
    exact expense_cons valid left right weigh (later steps' rest h)

/-- The leaves of a tree are at hand as the terms that they are. -/
structure Ready (network : Network) (pool : Pool) (trees : List Tree) (tree : Tree) : Prop where
  grown : network.Grown pool trees
  distinct : tree.leaves.Nodup
  leaves : ∀ id ∈ tree.leaves, id ∈ pool.live ∧ treeAt trees id = .term id

namespace Ready

theorem contractTree (ready : network.Ready pool trees tree) (model : CostModel) :
    ∃ made pool' steps, network.contractTree model pool tree = .ok (made, pool', steps) ∧
      Replays network model pool steps pool' ∧ network.Grown pool' (grow trees steps) ∧
      made ∈ pool'.live ∧ treeAt (grow trees steps) made = tree ∧
      ∀ id ∈ pool.live, id ∉ tree.leaves → id ∈ pool'.live ∧ id ≠ made := by
  obtain ⟨made, pool', steps, h, replays, -, live, others⟩ := contractTree_replays network model
    ready.grown.valid (fun id hm => (ready.leaves id hm).1) ready.distinct
  obtain ⟨-, -, at_made⟩ := treeAt_contractTree ready.grown.length (fun id hm => by
    obtain ⟨at_hand, at_id⟩ := ready.leaves id hm
    exact ⟨ready.grown.length ▸ ready.grown.valid.lt_length at_hand, at_id⟩) h
  exact ⟨made, pool', steps, h, replays, (replays.grown ready.grown).1, live, at_made, others⟩

theorem leftBranch (ready : network.Ready pool trees (.join left right)) :
    network.Ready pool trees left where
  grown := ready.grown
  distinct := (List.nodup_append.1 ready.distinct).1
  leaves id hm := ready.leaves id (List.mem_append_left _ hm)

/-- Contracting the left branch leaves the terms of the right one alone. -/
theorem rightBranch (ready : network.Ready pool trees (.join left right)) {made : Nat}
    (h : network.contractTree model pool left = .ok (made, pool', steps)) :
    network.Ready pool' (grow trees steps) right ∧ made ∉ right.leaves := by
  obtain ⟨_, _, _, h', -, grown, -, -, others⟩ := ready.leftBranch.contractTree model
  cases h.symm.trans h'
  obtain ⟨-, distinct, apart⟩ := List.nodup_append.1 ready.distinct
  have stays (id : Nat) (hm : id ∈ right.leaves) : id ∈ pool'.live ∧ id ≠ made :=
    others id (ready.leaves id (List.mem_append_right _ hm)).1 fun other => apart id other id hm rfl
  refine ⟨⟨grown, distinct, fun id hm => ⟨(stays id hm).1, ?_⟩⟩, fun hm => (stays made hm).2 rfl⟩
  obtain ⟨at_hand, at_id⟩ := ready.leaves id (List.mem_append_right _ hm)
  rw [treeAt_grow (ready.grown.length ▸ ready.grown.valid.lt_length at_hand), at_id]

/-- The steps of a tree cost what joining its tensors costs. -/
theorem expense_eq (ready : network.Ready pool trees tree) {made : Nat}
    (h : network.contractTree model pool tree = .ok (made, pool', steps)) :
    network.expense model pool steps = .ok (network.treeCost model tree) := by
  induction tree generalizing pool trees made pool' steps with
  | term id =>
    cases h
    rfl
  | join left right ihl ihr =>
    obtain ⟨a, poolA, stepsA, hA, replaysA, grownA, liveA, treeA, -⟩ := ready.leftBranch.contractTree model
    obtain ⟨readyR, out⟩ := ready.rightBranch hA
    obtain ⟨b, poolB, stepsB, hB, replaysB, grownB, liveB, treeB, others⟩ :=
      readyR.contractTree model
    -- the right branch does not read what the left one made, which so is still at hand
    obtain ⟨liveA', ne⟩ := others a liveA out
    obtain ⟨step, cost, weigh, rfl, rfl⟩ := exists_weigh network model grownB.valid liveA' liveB
    have contracts : network.contractTree model pool (.join left right) =
        .ok (poolB.made.length, poolB.contracted step.left step.right step.result,
          stepsA ++ stepsB ++ [step]) := by
      rw [Network.contractTree, hA]
      simp only [bind, Except.bind, hB, weigh, grownB.valid.contract_eq liveA' liveB]
      rfl
    cases h.symm.trans contracts
    have last : network.expense model poolB [step] = .ok (network.joinCost model left right) := by
      obtain ⟨-, costs⟩ := grownB.contracted liveA' liveB ne weigh
      have old := grownA.length ▸ grownA.valid.lt_length liveA
      rw [treeB, treeAt_grow old, treeA] at costs
      rw [expense_cons grownB.valid liveA' liveB weigh rfl, costs, Cost.add_zero]
    obtain ⟨costB, hcostB, laterB⟩ := replaysB.expense_append grownA.valid
    obtain ⟨costA, hcostA, laterA⟩ := replaysA.expense_append ready.grown.valid
    obtain rfl := Except.ok.inj (hcostA.symm.trans (ihl ready.leftBranch hA))
    obtain rfl := Except.ok.inj (hcostB.symm.trans (ihr readyR hB))
    rw [List.append_assoc, laterA _ _ (laterB _ _ last), treeCost, Cost.add_assoc]

theorem labels_eq (ready : network.Ready pool trees tree) {made : Nat}
    (h : network.contractTree model pool tree = .ok (made, pool', steps)) :
    ∃ labels, pool'.labels made = .ok labels ∧ network.Carries labels tree := by
  obtain ⟨_, _, _, h', -, grown, live, at_made, -⟩ := ready.contractTree model
  cases h.symm.trans h'
  exact ⟨_, grown.valid.labels_eq live, at_made ▸ grown.carries _ live⟩

end Ready

/-- In every call the leaves are at hand, and the table has chosen the branch. -/
theorem Emits.ready {branch : Tree} (emits : Emits network model pool tree pool' branch)
    (ready : network.Ready pool trees tree) (chosen : network.Chosen model tree) :
    (∃ trees', network.Ready pool' trees' branch) ∧ network.Chosen model branch := by
  induction emits generalizing trees with
  | here => exact ⟨⟨trees, ready⟩, chosen⟩
  | left _ ih => exact ih ready.leftBranch chosen.branches.1
  | right first _ ih => exact ih (ready.rightBranch first).1 chosen.branches.2

theorem Reduced.ready (reduced : network.Reduced)
    (perm : tree.leaves.Perm (List.range network.terms.length)) :
    network.Ready (.ofTerms network.terms) network.seedlings tree where
  grown := reduced.grown
  distinct := perm.nodup_iff.2 List.nodup_range
  leaves id hm := ⟨perm.mem_iff.1 hm, network.treeAt_seedlings id⟩

theorem chosen_bestTree? (h : network.bestTree? model = some tree)
    (perm : tree.leaves.Perm (List.range network.terms.length)) : network.Chosen model tree := by
  obtain ⟨best, hbest, same⟩ := Option.map_eq_some_iff.1 h
  refine ⟨best, ?_, same⟩
  rw [(covers_all perm).set_eq, memo?, ← Nat.one_shiftLeft]
  exact hbest

/-- The path of the best tree makes the tensors that the table of sets is about: a branch, in
whatever call it is contracted, gives a tensor with the labels of its set at the cost of the
entry of this set. In any other order, too, a tensor at hand carries those labels of its leaves
that the output or another term needs. -/
theorem Reduced.steps_match_entries (reduced : network.Reduced) (model : CostModel)
    (terms : network.terms ≠ []) (few : network.terms.length ≤ subsetLimit) :
    (∃ tree made pool steps, network.bestTree? model = some tree ∧
      network.contractTree model (.ofTerms network.terms) tree = .ok (made, pool, steps) ∧
      network.best model = .ok ⟨steps⟩ ∧
      ∀ pool branch, Emits network model (.ofTerms network.terms) tree pool branch →
        ∃ entry made pool' steps labels, network.memo? model branch.set = some entry ∧
          entry.tree = branch ∧
          network.contractTree model pool branch = .ok (made, pool', steps) ∧
          pool'.labels made = .ok labels ∧ labels.Nodup ∧
          (∀ c, c ∈ labels ↔ c ∈ network.setLabels branch.set) ∧
          network.expense model pool steps = .ok entry.cost) ∧
    ∀ steps pool, Replays network model (.ofTerms network.terms) steps pool →
      ∀ id ∈ pool.live, ∃ labels, pool.labels id = .ok labels ∧ labels.Nodup ∧
        ∀ c, c ∈ labels ↔
          (∃ leaf ∈ (treeAt (grow network.seedlings steps) id).leaves, c ∈ network.term leaf) ∧
          (c ∈ network.output ∨ ∃ other,
            other ∉ (treeAt (grow network.seedlings steps) id).leaves ∧ c ∈ network.term other) := by
  constructor
  · obtain ⟨tree, htree, perm⟩ : ∃ tree, network.bestTree? model = some tree ∧ _ :=
      exists_bestTree? model terms
    have ready := reduced.ready perm
    obtain ⟨made, pool, steps, hsteps, -⟩ := ready.contractTree model
    refine ⟨tree, made, pool, steps, htree, hsteps, best_eq_ok few htree hsteps,
      fun pool branch emits => ?_⟩
    obtain ⟨⟨trees, ready⟩, entry, hentry, rfl⟩ := emits.ready ready (chosen_bestTree? htree perm)
    obtain ⟨made, pool', steps, h, -⟩ := ready.contractTree model
    obtain ⟨labels, hlabels, carries⟩ := ready.labels_eq h
    refine ⟨entry, made, pool', steps, labels, hentry, rfl, h, hlabels, carries.nodup,
      carries.mem_iff, ?_⟩
    rw [ready.expense_eq h, reduced.cost_of_memo? (Tree.set_pos _) hentry]
  · intro steps pool replays id live
    obtain ⟨grown, -⟩ := replays.grown reduced.grown
    have carries := grown.carries id live
    exact ⟨_, grown.valid.labels_eq live, carries.nodup,
      fun c => (carries.mem_iff c).trans mem_treeLabels⟩

/-- In `ij,jk,ki->` the first two terms are contracted first. Their set is the number three. -/
theorem Reduced.steps_match_entries_cycle :
    let network : Network := ⟨[['i', 'j'], ['j', 'k'], ['k', 'i']],
      ⟨[('i', 2), ('j', 300), ('k', 4)]⟩, []⟩
    let terms := Pool.ofTerms network.terms
    network.Reduced ∧ network.terms ≠ [] ∧ network.terms.length ≤ subsetLimit ∧
      ∃ made pool steps labels cost,
        network.contractTree .cpu terms (.join (.term 0) (.term 1)) = .ok (made, pool, steps) ∧
        pool.labels made = .ok labels ∧ labels.Nodup ∧ (∀ c, c ∈ labels ↔ c ∈ ['i', 'k']) ∧
        network.expense .cpu terms steps = .ok cost ∧ cost.total.toNat = 19264 := by
  intro network terms
  have reduced : network.Reduced := ⟨by simp [network], by simp [network]⟩
  have nonempty : network.terms ≠ [] := by decide
  have few : network.terms.length ≤ subsetLimit := by decide
  obtain ⟨tree, -, -, -, htree, -, -, calls⟩ := (reduced.steps_match_entries .cpu nonempty few).1
  have chosen : network.bestTree? .cpu =
      some (.join (.join (.term 0) (.term 1)) (.term 2)) := by decide +kernel
  obtain rfl := Option.some.inj (chosen.symm.trans htree)
  obtain ⟨entry, made, pool, steps, labels, hentry, -, h, hlabels, nodup, mem, spent⟩ :=
    calls terms (.join (.term 0) (.term 1)) (.left .here)
  have told : (network.memo? .cpu 3).map (·.cost.total.toNat) = some 19264 := by decide +kernel
  have total := (congrArg (Option.map (·.cost.total.toNat)) hentry).symm.trans told
  exact ⟨reduced, nonempty, few, made, pool, steps, labels, entry.cost, h, hlabels, nodup, mem, spent,
    Option.some.inj total⟩

end Network

end Einsum
