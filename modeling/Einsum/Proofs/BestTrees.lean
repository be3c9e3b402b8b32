import Einsum.Proofs.Growing

/-! The table of sets holds a cheapest tree for every set.
An entry carries the labels of its tree and the clamped work of it. Any tree over a set is
a term or joins trees over two halves of the set; the entries of the halves do not cost
more, and their join is among the candidates. As clamping keeps the order, the entry of the
set of all terms is not dearer than any tree over all terms. -/

namespace Einsum

namespace Tree

variable {left right : Tree} {set : Nat}

theorem exists_mem_leaves (tree : Tree) : ∃ id, id ∈ tree.leaves := by
  induction tree with
  | term id => exact ⟨id, List.mem_singleton_self id⟩
  | join left right ihl _ =>
    obtain ⟨id, hm⟩ := ihl
    exact ⟨id, List.mem_append_left _ hm⟩

theorem set_pos (tree : Tree) : 0 < tree.set := by
  obtain ⟨id, hm⟩ := tree.exists_mem_leaves
  exact Nat.pos_of_ne_zero fun zero => by simpa [zero] using testBit_set.2 hm

theorem Covers.halves (covers : (join left right).Covers set) :
    left.Covers left.set ∧ right.Covers right.set ∧
      ∀ id, ¬(left.set.testBit id ∧ right.set.testBit id) := by
  obtain ⟨nodupLeft, nodupRight, disjoint⟩ := List.nodup_append.1 covers.1
  refine ⟨covers_set nodupLeft, covers_set nodupRight, fun id => ?_⟩
  rw [testBit_set, testBit_set]
  exact fun both => disjoint id both.1 id both.2 rfl

theorem Covers.swap (covers : (join left right).Covers set) : (join right left).Covers set := by
  have perm : (join right left).leaves.Perm (join left right).leaves := List.perm_append_comm
  exact ⟨perm.nodup_iff.2 covers.1, fun id => perm.mem_iff.trans (covers.2 id)⟩

theorem Covers.set_ne (covers : (join left right).Covers set) : left.set ≠ right.set := by
  intro same
  obtain ⟨id, hm⟩ := left.exists_mem_leaves
  have bit := testBit_set.2 hm
  exact covers.halves.2.2 id ⟨bit, same ▸ bit⟩

/-- A set that a join covers has two terms. -/
theorem Covers.two_pow_ne (covers : (join left right).Covers set) (id : Nat) : 2 ^ id ≠ set := by
  rintro rfl
  obtain ⟨i, hi⟩ := left.exists_mem_leaves
  obtain ⟨j, hj⟩ := right.exists_mem_leaves
  have first := (covers.2 i).1 (List.mem_append_left _ hi)
  have second := (covers.2 j).1 (List.mem_append_right _ hj)
  rw [Nat.testBit_two_pow, decide_eq_true_eq] at first second
  subst first second
  exact covers.halves.2.2 id ⟨testBit_set.2 hi, testBit_set.2 hj⟩

theorem Covers.mem_halves (covers : (join left right).Covers set) (lt : left.set < right.set) :
    (left.set, right.set) ∈ Einsum.halves set := by
  obtain ⟨-, -, disjoint⟩ := covers.halves
  obtain rfl := covers.set_eq
  have bits (id : Nat) : (join left right).set.testBit id =
      (left.set.testBit id || right.set.testBit id) := Nat.testBit_lor ..
  have part : left.set &&& (join left right).set = left.set := Nat.eq_of_testBit_eq fun id => by
    rw [Nat.testBit_land, bits]
    cases left.set.testBit id <;> rfl
  have rest : right.set = (join left right).set ^^^ left.set := Nat.eq_of_testBit_eq fun id => by
    have apart := disjoint id
    rw [Nat.testBit_xor, bits]
    revert apart
    cases left.set.testBit id <;> cases right.set.testBit id <;> decide
  have le : right.set ≤ (join left right).set := Nat.right_le_or
  exact Einsum.mem_halves.2 ⟨by omega, rest, part, left.set_pos, lt⟩

end Tree

namespace Network

variable {network : Network} {model : CostModel} {set : Nat} {best : SubsetBest}

/-- The work of a tree as an estimate tells it. -/
def price (network : Network) (model : CostModel) (tree : Tree) : Nat :=
  (Estimate.ofNat (network.work model tree)).toNat

theorem meeting_comm (network : Network) (model : CostModel) (left right result : Labels) :
    network.meeting model left right result = network.meeting model right left result := by
  have perm : (Labels.ascending (left ++ right)).Perm (Labels.ascending (right ++ left)) :=
    (List.perm_ext_iff_of_nodup (Labels.nodup_ascending _) (Labels.nodup_ascending _)).2 fun c => by
      simp only [Labels.mem_ascending, List.mem_append, or_comm]
  have union : (network.sizes.shape (Labels.ascending (left ++ right))).prod =
      (network.sizes.shape (Labels.ascending (right ++ left))).prod := (perm.map _).prod_eq
  simp only [meeting, union]
  rw [Nat.add_comm (network.sizes.shape left).prod]

theorem price_swap (network : Network) (model : CostModel) (left right : Tree) :
    network.price model (.join left right) = network.price model (.join right left) := by
  have labels : network.treeLabels (.join left right) = network.treeLabels (.join right left) :=
    congrArg network.setLabels (Nat.or_comm left.set right.set)
  rw [price, work, labels, meeting_comm, Nat.add_comm (network.work model left)]
  rfl

/-- A join gets no dearer when cheaper trees over the same sets are joined. -/
theorem price_join_le {left right left' right' : Tree} (sameLeft : left.set = left'.set)
    (sameRight : right.set = right'.set)
    (hl : network.price model left ≤ network.price model left')
    (hr : network.price model right ≤ network.price model right') :
    network.price model (.join left right) ≤ network.price model (.join left' right') := by
  have labels : network.meeting model (network.treeLabels left) (network.treeLabels right)
      (network.treeLabels (.join left right)) =
      network.meeting model (network.treeLabels left') (network.treeLabels right')
        (network.treeLabels (.join left' right')) := by
    simp only [treeLabels, Tree.set, sameLeft, sameRight]
  simp only [price, Estimate.toNat_ofNat, work, labels] at hl hr ⊢
  omega

/-- An entry that tells the truth about its tree. -/
structure Reckoned (network : Network) (model : CostModel) (set : Nat) (best : SubsetBest) :
    Prop where
  covers : best.tree.Covers set
  carries : network.Carries best.labels best.tree
  total : best.cost.total = .ofNat (network.work model best.tree)

theorem Reckoned.rank_eq (reckoned : network.Reckoned model set best) :
    best.cost.rank = network.price model best.tree := by
  rw [Cost.rank, reckoned.total, price]

theorem Reckoned.join {left right : Nat} {l r : SubsetBest} (h : (left, right) ∈ halves set)
    (hl : network.Reckoned model left l) (hr : network.Reckoned model right r) :
    network.Reckoned model set (network.joinBest model (network.setLabels set) l r) := by
  have covers := covers_join h hl.covers hr.covers
  have labels : network.treeLabels (.join l.tree r.tree) = network.setLabels set :=
    congrArg network.setLabels covers.set_eq
  have carries : network.Carries (network.setLabels set) (.join l.tree r.tree) :=
    ⟨labels ▸ network.nodup_treeLabels _, fun c => by rw [labels]⟩
  refine ⟨covers, carries, ?_⟩
  calc l.cost.total + r.cost.total + _
      = .ofNat (network.work model l.tree) + .ofNat (network.work model r.tree) +
          .ofNat (network.meeting model (network.treeLabels l.tree) (network.treeLabels r.tree)
            (network.treeLabels (.join l.tree r.tree))) := by
        rw [hl.total, hr.total, hl.carries.contraction_eq model hr.carries carries, total_joinCost]
    _ = .ofNat (network.work model (.join l.tree r.tree)) := by
        rw [Estimate.ofNat_add, Estimate.ofNat_add, work]

/-- An entry is a term's or joins the entries of two halves. -/
theorem bestOf_induction {motive : Nat → SubsetBest → Prop}
    (term : ∀ id, (h : id < network.terms.length) →
      motive (2 ^ id) ⟨.zero, Labels.ascending network.terms[id], .term id⟩)
    (join : ∀ {set left right : Nat} {l r : SubsetBest}, (left, right) ∈ halves set →
      motive left l → motive right r →
        motive set (network.joinBest model (network.setLabels set) l r))
    (pos : 0 < set) (below : set < 2 ^ network.terms.length)
    (h : network.bestOf model (network.bestTable model set) set = some best) :
    motive set best := by
  induction set using Nat.strongRecOn generalizing best with
  | ind set ih =>
    by_cases several : ∀ i, 2 ^ i ≠ set
    · rw [bestOf_several model _ several] at h
      obtain ⟨left, right, l, r, half, hl, hr, rfl⟩ := mem_candidates.1 (List.minOn?_mem h)
      have rightLt := lt_of_mem_halves half
      obtain ⟨leftLt, -, -, leftPos, lt⟩ := mem_halves.1 half
      rw [join_getElem?_bestTable leftLt] at hl
      rw [join_getElem?_bestTable rightLt] at hr
      exact join half (ih left leftLt leftPos (by omega) hl)
        (ih right rightLt (by omega) (by omega) hr)
    · simp only [ne_eq, not_forall, not_not] at several
      obtain ⟨id, rfl⟩ := several
      have hlt := (Nat.pow_lt_pow_iff_right (by omega)).1 below
      rw [bestOf_two_pow model _ hlt] at h
      obtain rfl := Option.some.inj h
      exact term id hlt

theorem Reduced.reckoned_term (reduced : network.Reduced) (model : CostModel) {id : Nat}
    (h : id < network.terms.length) :
    network.Reckoned model (2 ^ id) ⟨.zero, Labels.ascending network.terms[id], .term id⟩ where
  covers := Tree.covers_set (List.nodup_singleton id)
  carries := by
    refine ⟨Labels.nodup_ascending _, fun c => ?_⟩
    rw [Labels.mem_ascending, ← (reduced.carries id).mem_iff, Network.term,
      List.getElem?_eq_getElem h, Option.getD_some]
  total := rfl

theorem Reduced.reckoned_bestOf (reduced : network.Reduced) (pos : 0 < set)
    (below : set < 2 ^ network.terms.length)
    (h : network.bestOf model (network.bestTable model set) set = some best) :
    network.Reckoned model set best :=
  bestOf_induction (fun _ => reduced.reckoned_term model) .join pos below h

/-- The join of the best trees over two halves is one of the candidates. -/
theorem Reduced.price_bestOf_le_join (reduced : network.Reduced) {left right : Tree}
    (covers : (Tree.join left right).Covers set) (lt : left.set < right.set)
    (below : set < 2 ^ network.terms.length)
    (h : network.bestOf model (network.bestTable model set) set = some best)
    (hl : ∀ l, network.bestOf model (network.bestTable model left.set) left.set = some l →
      network.price model l.tree ≤ network.price model left)
    (hr : ∀ r, network.bestOf model (network.bestTable model right.set) right.set = some r →
      network.price model r.tree ≤ network.price model right) :
    network.price model best.tree ≤ network.price model (.join left right) := by
  have half := covers.mem_halves lt
  have leftLt := (mem_halves.1 half).1
  have rightLt := lt_of_mem_halves half
  obtain ⟨l, r, entryLeft, -, entryRight, -⟩ := exists_entries network model below half
  have candidate : network.joinBest model (network.setLabels set) l r ∈
      network.candidates model (network.bestTable model set) set :=
    mem_candidates.2 ⟨_, _, l, r, half, entryLeft, entryRight, rfl⟩
  rw [join_getElem?_bestTable leftLt] at entryLeft
  rw [join_getElem?_bestTable rightLt] at entryRight
  have reckonedLeft := reduced.reckoned_bestOf left.set_pos (by omega) entryLeft
  have reckonedRight := reduced.reckoned_bestOf right.set_pos (by omega) entryRight
  have reckoned := reduced.reckoned_bestOf (by omega) below h
  rw [bestOf_several model _ covers.two_pow_ne] at h
  have least := le_of_minOn? h candidate
  calc network.price model best.tree
      = best.cost.rank := reckoned.rank_eq.symm
    _ ≤ (network.joinBest model (network.setLabels set) l r).cost.rank := least
    _ = network.price model (.join l.tree r.tree) :=
        (Reckoned.join half reckonedLeft reckonedRight).rank_eq
    _ ≤ network.price model (.join left right) :=
        price_join_le reckonedLeft.covers.set_eq reckonedRight.covers.set_eq (hl l entryLeft)
          (hr r entryRight)

/-- No tree over a set is cheaper than the entry of the set. -/
theorem Reduced.price_bestOf_le (reduced : network.Reduced) {tree : Tree} (covers : tree.Covers set)
    (below : set < 2 ^ network.terms.length)
    (h : network.bestOf model (network.bestTable model set) set = some best) :
    network.price model best.tree ≤ network.price model tree := by
  induction tree generalizing set best with
  | term id =>
    obtain rfl : 2 ^ id = set := covers.set_eq
    rw [bestOf_two_pow model _ ((Nat.pow_lt_pow_iff_right (by omega)).1 below)] at h
    obtain rfl := Option.some.inj h
    exact Nat.le_refl _
  | join left right ihl ihr =>
    obtain ⟨coversLeft, coversRight, -⟩ := covers.halves
    have leftLe : left.set ≤ set := covers.set_eq ▸ Nat.left_le_or
    have rightLe : right.set ≤ set := covers.set_eq ▸ Nat.right_le_or
    have leftBelow : left.set < 2 ^ network.terms.length := by omega
    have rightBelow : right.set < 2 ^ network.terms.length := by omega
    -- only one of the two orders of the halves is tried
    rcases Nat.lt_or_gt_of_ne covers.set_ne with lt | gt
    · exact reduced.price_bestOf_le_join covers lt below h
        (fun _ => ihl coversLeft leftBelow) (fun _ => ihr coversRight rightBelow)
    · rw [price_swap]
      exact reduced.price_bestOf_le_join covers.swap gt below h
        (fun _ => ihr coversRight rightBelow) (fun _ => ihl coversLeft leftBelow)

theorem covers_all {tree : Tree} (perm : tree.leaves.Perm (List.range network.terms.length)) :
    tree.Covers (2 ^ network.terms.length - 1) := by
  refine ⟨perm.nodup_iff.2 List.nodup_range, fun id => ?_⟩
  rw [perm.mem_iff, List.mem_range, Nat.testBit_two_pow_sub_one, decide_eq_true_eq]

theorem Reduced.price_bestTree?_le (reduced : network.Reduced) {tree other : Tree}
    (h : network.bestTree? model = some tree)
    (perm : other.leaves.Perm (List.range network.terms.length)) :
    network.price model tree ≤ network.price model other := by
  have covers := covers_all perm
  have pos := covers.set_eq ▸ other.set_pos
  rw [bestTree?, Nat.one_shiftLeft, join_getElem?_bestTable (by omega)] at h
  obtain ⟨best, hbest, rfl⟩ := Option.map_eq_some_iff.1 h
  exact reduced.price_bestOf_le covers (by omega) hbest

theorem Reduced.rank_eq_price (reduced : network.Reduced) {steps : List Contraction} {pool : Pool}
    (replays : Replays network model (.ofTerms network.terms) steps pool) {id : Nat}
    (one : pool.live = [id]) :
    ∃ cost, network.expense model (.ofTerms network.terms) steps = .ok cost ∧
      cost.rank = network.price model (treeAt (grow network.seedlings steps) id) ∧
      (treeAt (grow network.seedlings steps) id).leaves.Perm (List.range network.terms.length) := by
  obtain ⟨cost, hcost, total, perm⟩ := reduced.expense_eq replays one
  exact ⟨cost, hcost, by rw [Cost.rank, total, price], perm⟩

/-- The path of the best tree costs no more than any steps that leave one tensor. -/
theorem Reduced.best_cheapest (reduced : network.Reduced) (model : CostModel)
    (terms : network.terms ≠ []) (few : network.terms.length ≤ subsetLimit) :
    ∃ path cost, network.best model = .ok path ∧
      network.expense model (.ofTerms network.terms) path.steps = .ok cost ∧
      ∀ steps pool, Replays network model (.ofTerms network.terms) steps pool →
        pool.live.length = 1 →
        ∃ cost', network.expense model (.ofTerms network.terms) steps = .ok cost' ∧
          cost.rank ≤ cost'.rank := by
  obtain ⟨tree, htree, perm⟩ : ∃ tree, network.bestTree? model = some tree ∧ _ :=
    exists_bestTree? model terms
  have valid := Pool.ofTerms_valid network.terms
  obtain ⟨made, pool, steps, hsteps, replays, length, live, -⟩ := contractTree_replays network model
    valid (fun id hm => perm.mem_iff.1 hm) (perm.nodup_iff.2 List.nodup_range)
  have one : pool.live = [made] := by
    have count := replays.length_live valid
    have all : (Pool.ofTerms network.terms).live.length = network.terms.length := List.length_range
    rw [perm.length_eq, List.length_range] at length
    obtain ⟨id, single⟩ := List.length_eq_one_iff.1 (by omega : pool.live.length = 1)
    rw [single, List.mem_singleton] at live
    rw [single, live]
  obtain ⟨-, -, grown⟩ := treeAt_contractTree reduced.grown.length (fun id hm =>
    ⟨by simpa [seedlings] using perm.mem_iff.1 hm, network.treeAt_seedlings id⟩) hsteps
  obtain ⟨cost, hcost, rank, -⟩ := reduced.rank_eq_price replays one
  rw [grown] at rank
  refine ⟨⟨steps⟩, cost, best_eq_ok few htree hsteps, hcost, fun steps' pool' replays' one' => ?_⟩
  obtain ⟨id, single⟩ := List.length_eq_one_iff.1 one'
  obtain ⟨cost', hcost', rank', perm'⟩ := reduced.rank_eq_price replays' single
  refine ⟨cost', hcost', ?_⟩
  rw [rank, rank']
  exact reduced.price_bestTree?_le htree perm'

end Network

end Einsum
