import Einsum.Proofs.TreeCosts

/-! Trees that grow as a pool is contracted.
Every tensor made so far has its tree; a contraction joins two of them. The trees of the
tensors at hand have all terms for leaves, each once, and what the tensors have cost so far
is the work of these trees. When one tensor is left, its tree tells the cost of the path. -/

namespace Einsum

/-- The tree of a tensor, by its number; a tensor without an entry is a term. -/
def treeAt (trees : List Tree) (id : Nat) : Tree := trees[id]?.getD (.term id)

/-- The trees after some more contractions. -/
def grow (trees : List Tree) (steps : List Contraction) : List Tree :=
  steps.foldl (fun trees step => trees ++ [.join (treeAt trees step.left) (treeAt trees step.right)])
    trees

theorem treeAt_append {trees : List Tree} {id : Nat} (h : id < trees.length) (more : List Tree) :
    treeAt (trees ++ more) id = treeAt trees id := by
  rw [treeAt, treeAt, List.getElem?_append_left h]

theorem treeAt_concat (trees : List Tree) (tree : Tree) :
    treeAt (trees ++ [tree]) trees.length = tree := by
  rw [treeAt, List.getElem?_concat_length]
  rfl

theorem grow_append (trees : List Tree) (steps steps' : List Contraction) :
    grow trees (steps ++ steps') = grow (grow trees steps) steps' := List.foldl_append

theorem grow_cons (trees : List Tree) (step : Contraction) (steps : List Contraction) :
    grow trees (step :: steps) =
      grow (trees ++ [.join (treeAt trees step.left) (treeAt trees step.right)]) steps := rfl

theorem treeAt_grow {trees : List Tree} {id : Nat} (h : id < trees.length) (steps : List Contraction) :
    treeAt (grow trees steps) id = treeAt trees id := by
  induction steps generalizing trees with
  | nil => rfl
  | cons step steps ih =>
    rw [grow_cons, ih (by rw [List.length_append]; omega), treeAt_append h]

/-- The trees of the tensors at hand. -/
def forest (trees : List Tree) (pool : Pool) : List Tree := pool.live.map (treeAt trees)

/-- A contraction takes two trees out and puts their join in. -/
theorem forest_contracted {pool : Pool} {trees : List Tree} {a b : Nat} (valid : pool.Valid)
    (length : trees.length = pool.made.length) (ha : a ∈ pool.live) (hb : b ∈ pool.live)
    (ne : a ≠ b) (result : Labels) :
    ∃ others, (forest trees pool).Perm (treeAt trees a :: treeAt trees b :: others) ∧
      (forest (trees ++ [.join (treeAt trees a) (treeAt trees b)])
        (pool.contracted a b result)).Perm (.join (treeAt trees a) (treeAt trees b) :: others) := by
  refine ⟨(pool.live.filter fun other => other != a && other != b).map (treeAt trees),
    (valid.live_perm ha hb ne).map _, ?_⟩
  rw [forest, Pool.contracted, List.map_append, List.map_singleton, ← length, treeAt_concat]
  refine (List.perm_append_singleton _ _).trans (.cons _ (.of_eq (List.map_congr_left fun id hm => ?_)))
  exact treeAt_append (length ▸ valid.lt_length (List.mem_of_mem_filter hm)) _

theorem length_grow (trees : List Tree) (steps : List Contraction) :
    (grow trees steps).length = trees.length + steps.length := by
  induction steps generalizing trees with
  | nil => rfl
  | cons step steps ih =>
    rw [grow_cons, ih, List.length_append, List.length_singleton, List.length_cons]
    omega

namespace Network

variable {network : Network} {model : CostModel} {pool pool' : Pool} {trees : List Tree}
  {steps : List Contraction}

/-- What contracting the pairs of the steps costs, pair after pair. -/
def expense (network : Network) (model : CostModel) (pool : Pool) :
    List Contraction → Except Error Cost
  | [] => .ok .zero
  | pair :: rest => do
    let (step, cost) ← network.weigh model pool pair.left pair.right
    let (_, pool) ← pool.contract step.left step.right step.result
    return cost + (← network.expense model pool rest)

/-- Weighing gives the pairwise cost and puts its operations down in the step. -/
theorem weighed {a b : Nat} {step : Contraction} {cost : Cost} (valid : pool.Valid)
    (ha : a ∈ pool.live) (hb : b ∈ pool.live)
    (weigh : network.weigh model pool a b = .ok (step, cost)) :
    step.flops = cost.flops ∧
      cost = model.pairwise network.sizes (pool.labelsOf a) (pool.labelsOf b) step.labels := by
  obtain ⟨keep, hp, -⟩ := valid.exists_pairing ha hb network.output
  rw [weigh_eq network model valid ha hb hp, Except.ok.injEq, Prod.mk.injEq] at weigh
  obtain ⟨rfl, rfl⟩ := weigh
  exact ⟨rfl, rfl⟩

theorem expense_cons {step : Contraction} {cost rest : Cost} (valid : pool.Valid)
    (left : step.left ∈ pool.live) (right : step.right ∈ pool.live)
    (weigh : network.weigh model pool step.left step.right = .ok (step, cost))
    (later : network.expense model (pool.contracted step.left step.right step.result) steps = .ok rest) :
    network.expense model pool (step :: steps) = .ok (cost + rest) := by
  rw [expense, weigh]
  simp only [bind, Except.bind, valid.contract_eq left right, later]
  rfl

/-- Trees for all tensors made so far, where those at hand have all terms for leaves. -/
structure Grown (network : Network) (pool : Pool) (trees : List Tree) : Prop where
  valid : pool.Valid
  length : trees.length = pool.made.length
  leaves : ((forest trees pool).flatMap Tree.leaves).Perm (List.range network.terms.length)
  carries : ∀ id ∈ pool.live, network.Carries (pool.labelsOf id) (treeAt trees id)

section Contracted

variable {a b : Nat} (grown : network.Grown pool trees) (ha : a ∈ pool.live) (hb : b ∈ pool.live)

include grown ha hb

theorem Grown.disjoint (ne : a ≠ b) :
    ∀ id ∈ (treeAt trees a).leaves, id ∉ (treeAt trees b).leaves := by
  obtain ⟨others, before, -⟩ := forest_contracted grown.valid grown.length ha hb ne []
  have nodup := (before.flatMap_right Tree.leaves).nodup_iff.1
    (grown.leaves.nodup_iff.2 List.nodup_range)
  have apart := (List.nodup_append.1 nodup).2.2
  exact fun id hida hidb => apart id hida id (List.mem_append_left _ hidb) rfl

/-- What is needed elsewhere is needed by a term outside both trees. -/
theorem Grown.kept {c : Label} (hc : c ∈ pool.labelsOf a) :
    (c ∈ network.output ∨ ∃ id ∈ pool.live, id ≠ a ∧ id ≠ b ∧ c ∈ pool.labelsOf id) ↔
      c ∈ network.output ∨ ∃ id, id ∉ (treeAt trees a).leaves ∧ id ∉ (treeAt trees b).leaves ∧
        c ∈ network.term id := by
  refine or_congr_right ?_
  constructor
  · rintro ⟨id, live, hia, hib, hid⟩
    obtain ⟨⟨leaf, hleaf, hterm⟩, -⟩ := mem_treeLabels.1 (((grown.carries id live).mem_iff c).1 hid)
    exact ⟨leaf, grown.disjoint live ha hia leaf hleaf, grown.disjoint live hb hib leaf hleaf, hterm⟩
  · rintro ⟨leaf, outA, outB, hterm⟩
    obtain ⟨tree, hm, hleaf⟩ := List.mem_flatMap.1
      (grown.leaves.mem_iff.2 (List.mem_range.2 (lt_of_mem_term hterm)))
    obtain ⟨id, live, rfl⟩ := List.mem_map.1 hm
    have hia : id ≠ a := fun h => outA (h ▸ hleaf)
    have hib : id ≠ b := fun h => outB (h ▸ hleaf)
    -- a leaf of the first tree has the label too, so this one does not lose it
    obtain ⟨⟨other, hother, hterm'⟩, -⟩ := mem_treeLabels.1 (((grown.carries a ha).mem_iff c).1 hc)
    have outside := grown.disjoint ha live hia.symm other hother
    exact ⟨id, live, hia, hib, ((grown.carries id live).mem_iff c).2
      (mem_treeLabels.2 ⟨⟨leaf, hleaf, hterm⟩, .inr ⟨other, outside, hterm'⟩⟩)⟩

/-- A contraction joins two trees and costs what it costs to join them. -/
theorem Grown.contracted {step : Contraction} {cost : Cost} (ne : a ≠ b)
    (weigh : network.weigh model pool a b = .ok (step, cost)) :
    network.Grown (pool.contracted a b step.result)
      (trees ++ [.join (treeAt trees a) (treeAt trees b)]) ∧
    cost = network.joinCost model (treeAt trees a) (treeAt trees b) := by
  obtain ⟨-, -, keep, labels, kept⟩ := exists_keep grown.valid ha hb weigh
  obtain ⟨-, rfl⟩ := weighed grown.valid ha hb weigh
  have left := grown.carries a ha
  have right := grown.carries b hb
  have joined := left.join right (grown.disjoint ha hb ne)
    fun c hc => (kept c).trans (grown.kept ha hb hc)
  rw [Contraction.result, labels]
  refine ⟨⟨grown.valid.contracted _ _ _, ?_, ?_, fun id live => ?_⟩,
    left.pairwise_eq model right joined⟩
  · rw [List.length_append, List.length_singleton, Pool.length_made_contracted, grown.length]
  · obtain ⟨others, before, after⟩ :=
      forest_contracted grown.valid grown.length ha hb ne _
    refine (after.flatMap_right _).trans (.trans ?_ grown.leaves)
    refine .trans (.of_eq ?_) (before.flatMap_right _).symm
    rw [List.flatMap_cons, List.flatMap_cons, List.flatMap_cons, Tree.leaves, List.append_assoc]
  · rcases List.mem_append.1 live with hm | hm
    · obtain ⟨hm, hne⟩ := List.mem_filter.1 hm
      obtain ⟨hia, hib⟩ : id ≠ a ∧ id ≠ b := by simpa using hne
      rw [grown.valid.labelsOf_contracted hm hia hib,
        treeAt_append (grown.length ▸ grown.valid.lt_length hm)]
      exact grown.carries id hm
    · rw [List.mem_singleton.1 hm, Pool.labelsOf_contracted_length, ← grown.length, treeAt_concat]
      exact joined

end Contracted

/-- The steps of a path cost, together, what the work of the trees at hand grows by. -/
theorem Replays.grown (replays : Replays network model pool steps pool')
    (grown : network.Grown pool trees) :
    network.Grown pool' (grow trees steps) ∧
      ∃ cost spent, network.expense model pool steps = .ok cost ∧ cost.total = .ofNat spent ∧
        spent + ((forest trees pool).map (network.work model)).sum =
          ((forest (grow trees steps) pool').map (network.work model)).sum := by
  induction replays generalizing trees with
  | nil => exact ⟨grown, .zero, 0, rfl, rfl, Nat.zero_add _⟩
  | @cons pool pool' step cost steps left right ne weigh replays ih =>
    obtain ⟨grown', costs⟩ := grown.contracted left right ne weigh
    have first := (congrArg (·.total) costs).trans (network.total_joinCost model _ _)
    obtain ⟨final, rest, spent, hrest, total, sum⟩ := ih grown'
    obtain ⟨others, before, after⟩ :=
      forest_contracted grown.valid grown.length left right ne step.result
    refine ⟨final, cost + rest, _, expense_cons grown.valid left right weigh hrest,
      (congrArg₂ (· + ·) first total).trans (Estimate.ofNat_add _ _), ?_⟩
    · have after := (after.map (network.work model)).sum_eq
      have before := (before.map (network.work model)).sum_eq
      rw [List.map_cons, List.sum_cons] at after
      rw [List.map_cons, List.map_cons, List.sum_cons, List.sum_cons] at before
      rw [grow_cons, ← sum, after, before, work]
      omega

/-- Terms that carry no label twice, and none that only one of them has and the output lacks. -/
structure Reduced (network : Network) : Prop where
  nodup : ∀ labels ∈ network.terms, labels.Nodup
  shared : ∀ labels ∈ network.terms, ∀ c ∈ labels,
    c ∈ network.output ∨ 1 < network.terms.countP (·.contains c)

/-- The terms as trees. -/
def seedlings (network : Network) : List Tree := (List.range network.terms.length).map .term

theorem treeAt_seedlings (network : Network) (id : Nat) : treeAt network.seedlings id = .term id := by
  rw [treeAt, seedlings, List.getElem?_map]
  cases h : (List.range network.terms.length)[id]? with
  | none => rfl
  | some other =>
    obtain ⟨hlt, rfl⟩ := List.getElem?_eq_some_iff.1 h
    simp

theorem forest_seedlings (network : Network) :
    forest network.seedlings (.ofTerms network.terms) = network.seedlings :=
  List.map_congr_left fun id _ => network.treeAt_seedlings id

theorem Reduced.exists_other (reduced : network.Reduced) {id : Nat} {c : Label}
    (hc : c ∈ network.term id) :
    c ∈ network.output ∨ ∃ other, other ≠ id ∧ c ∈ network.term other := by
  obtain ⟨labels, found, hl⟩ := mem_term.1 hc
  obtain ⟨hlt, rfl⟩ := List.getElem?_eq_some_iff.1 found
  refine (reduced.shared _ (List.getElem_mem hlt) c hl).imp_right fun several => ?_
  -- without this term the label still occurs
  rw [← (List.getElem_cons_eraseIdx_perm hlt).countP_eq, List.countP_cons,
    if_pos (List.contains_iff_mem.2 hl)] at several
  obtain ⟨labels', hm, hl'⟩ := List.countP_pos_iff.1 (Nat.lt_of_succ_lt_succ several)
  obtain ⟨other, ne, found'⟩ := List.mem_eraseIdx_iff_getElem?.1 hm
  exact ⟨other, ne, mem_term.2 ⟨labels', found', List.contains_iff_mem.1 hl'⟩⟩

theorem Reduced.carries (reduced : network.Reduced) (id : Nat) :
    network.Carries (network.term id) (.term id) where
  nodup := by
    rw [term]
    cases h : network.terms[id]? with
    | none => exact List.nodup_nil
    | some labels => exact reduced.nodup labels (List.mem_of_getElem? h)
  mem_iff c := by
    simp only [mem_treeLabels, Tree.leaves, List.mem_singleton, exists_eq_left]
    exact ⟨fun h => ⟨h, reduced.exists_other h⟩, fun h => h.1⟩

theorem Reduced.grown (reduced : network.Reduced) :
    network.Grown (.ofTerms network.terms) network.seedlings where
  valid := Pool.ofTerms_valid network.terms
  length := by simp [seedlings, Pool.ofTerms]
  leaves := by
    rw [forest_seedlings, seedlings, List.flatMap_map]
    exact .of_eq (List.flatMap_singleton' _)
  carries id _ := by
    rw [Pool.labelsOf_ofTerms, treeAt_seedlings]
    exact reduced.carries id

/-- A path that leaves one tensor costs the work of the tree of this tensor. -/
theorem Reduced.expense_eq (reduced : network.Reduced)
    (replays : Replays network model (.ofTerms network.terms) steps pool') {id : Nat}
    (one : pool'.live = [id]) :
    ∃ cost, network.expense model (.ofTerms network.terms) steps = .ok cost ∧
      cost.total = .ofNat (network.work model (treeAt (grow network.seedlings steps) id)) ∧
      (treeAt (grow network.seedlings steps) id).leaves.Perm (List.range network.terms.length) := by
  obtain ⟨grown, cost, spent, hcost, total, sum⟩ := replays.grown reduced.grown
  have nothing : (network.seedlings.map (network.work model)).sum = 0 :=
    List.sum_eq_zero fun n hn => by
      obtain ⟨tree, hm, rfl⟩ := List.mem_map.1 hn
      obtain ⟨term, -, rfl⟩ := List.mem_map.1 hm
      rfl
  have last : forest (grow network.seedlings steps) pool' = [treeAt (grow network.seedlings steps) id] := by
    rw [forest, one, List.map_singleton]
  rw [forest_seedlings, nothing, last, Nat.add_zero, List.map_singleton, List.sum_singleton] at sum
  have leaves := grown.leaves
  rw [last, List.flatMap_singleton] at leaves
  exact ⟨cost, hcost, sum ▸ total, leaves⟩

theorem weigh_numbers {a b : Nat} {step : Contraction} {cost : Cost}
    (h : network.weigh model pool a b = .ok (step, cost)) : step.left = a ∧ step.right = b := by
  rw [weigh] at h
  obtain ⟨pairing, -, h⟩ := bind_eq_ok_iff.1 h
  obtain ⟨left, -, h⟩ := bind_eq_ok_iff.1 h
  obtain ⟨right, -, h⟩ := bind_eq_ok_iff.1 h
  cases h
  exact ⟨rfl, rfl⟩

theorem contract_numbers {a b made : Nat} {result : Labels}
    (h : pool.contract a b result = .ok (made, pool')) :
    made = pool.made.length ∧ pool'.made.length = pool.made.length + 1 := by
  rw [Pool.contract] at h
  split at h
  · cases h
  · split at h
    · cases h
    · cases h
      simp

/-- The steps of a tree grow this tree. -/
theorem treeAt_contractTree {tree : Tree} {made : Nat} (length : trees.length = pool.made.length)
    (terms : ∀ id ∈ tree.leaves, id < trees.length ∧ treeAt trees id = .term id)
    (h : network.contractTree model pool tree = .ok (made, pool', steps)) :
    (grow trees steps).length = pool'.made.length ∧ made < pool'.made.length ∧
      treeAt (grow trees steps) made = tree := by
  induction tree generalizing pool trees made pool' steps with
  | term id =>
    cases h
    obtain ⟨below, at_id⟩ := terms id (List.mem_singleton_self id)
    exact ⟨length, length ▸ below, at_id⟩
  | join left right ihl ihr =>
    rw [contractTree] at h
    obtain ⟨⟨a, poolA, stepsA⟩, hA, h⟩ := bind_eq_ok_iff.1 h
    obtain ⟨⟨b, poolB, stepsB⟩, hB, h⟩ := bind_eq_ok_iff.1 h
    obtain ⟨⟨step, cost⟩, weigh, h⟩ := bind_eq_ok_iff.1 h
    obtain ⟨⟨new, poolC⟩, contract, h⟩ := bind_eq_ok_iff.1 h
    cases h
    obtain ⟨rfl, rfl⟩ := weigh_numbers weigh
    obtain ⟨rfl, lengthC⟩ := contract_numbers contract
    obtain ⟨lengthA, belowA, treeA⟩ :=
      ihl length (fun id hm => terms id (List.mem_append_left _ hm)) hA
    obtain ⟨lengthB, belowB, treeB⟩ := ihr lengthA (fun id hm => by
      obtain ⟨below, at_id⟩ := terms id (List.mem_append_right _ hm)
      exact ⟨by rw [length_grow]; omega, by rw [treeAt_grow below, at_id]⟩) hB
    rw [grow_append, grow_append, grow_cons, treeB, treeAt_grow (by omega), treeA]
    refine ⟨?_, by omega, ?_⟩
    · rw [lengthC, ← lengthB]
      exact List.length_append
    · rw [← lengthB]
      exact treeAt_concat _ _

end Network

end Einsum
