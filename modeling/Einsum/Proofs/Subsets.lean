import Mathlib.Data.Nat.Bitwise
import Einsum.Proofs.Replays
import Einsum.Strategy

/-! The tree over all terms that the table of sets gives.
A set of terms is a number with a bit for each of them. Every set with a term in it gets a
tree whose leaves are its terms, each once, as a set of two or more terms falls in two
halves with smaller numbers. The steps of such a tree replay on the pool of the terms, so
that every strategy finds steps that leave one tensor. -/

namespace Einsum

namespace Tree

def leaves : Tree → List Nat
  | .term id => [id]
  | .join left right => left.leaves ++ right.leaves

/-- The leaves are the terms of a set, each once. -/
def Covers (tree : Tree) (set : Nat) : Prop :=
  tree.leaves.Nodup ∧ ∀ id, id ∈ tree.leaves ↔ set.testBit id

end Tree

section Halves

variable {set left right : Nat}

theorem mem_halves : (left, right) ∈ halves set ↔
    left < set ∧ right = set ^^^ left ∧ left &&& set = left ∧ 0 < left ∧ left < right := by
  simp only [halves, List.mem_filterMap, List.mem_reverse, List.mem_range]
  constructor
  · rintro ⟨a, ha, h⟩
    split at h
    · obtain ⟨rfl, rfl⟩ := Prod.mk.inj (Option.some.inj h)
      rename_i part
      exact ⟨ha, rfl, part⟩
    · cases h
  · rintro ⟨ha, rfl, h⟩
    exact ⟨left, ha, by simp [h]⟩

theorem testBit_of_mem_halves (h : (left, right) ∈ halves set) (i : Nat) :
    set.testBit i = (left.testBit i || right.testBit i) ∧
      ¬(left.testBit i = true ∧ right.testBit i = true) := by
  obtain ⟨-, rfl, part, -⟩ := mem_halves.1 h
  have bit := congrArg (fun n => n.testBit i) part
  rw [Nat.testBit_land] at bit
  rw [Nat.testBit_xor]
  cases hs : set.testBit i <;> cases hl : left.testBit i <;> simp_all

theorem lt_of_mem_halves (h : (left, right) ∈ halves set) : right < set := by
  obtain ⟨-, hr, part, pos, -⟩ := mem_halves.1 h
  have le : right ≤ set := by
    have : right &&& set = right := Nat.eq_of_testBit_eq fun i => by
      have bits := (testBit_of_mem_halves h i).1
      rw [Nat.testBit_land, bits]
      cases left.testBit i <;> cases right.testBit i <;> rfl
    exact this ▸ Nat.and_le_right
  refine lt_of_le_of_ne le fun heq => ?_
  have same : set ^^^ left = set ^^^ 0 := by rw [Nat.xor_zero, ← hr, heq]
  have zero : left = 0 := Nat.xor_right_injective same
  omega

/-- Several terms fall into all but the last one and the last one. -/
theorem exists_mem_halves (pos : 0 < set) (several : ∀ i, 2 ^ i ≠ set) :
    ∃ left right, (left, right) ∈ halves set := by
  have low : set % 2 ^ set.log2 < 2 ^ set.log2 := Nat.mod_lt _ (Nat.two_pow_pos _)
  have top : 2 ^ set.log2 ≤ set := Nat.log2_self_le (by omega)
  have part : set % 2 ^ set.log2 &&& set = set % 2 ^ set.log2 := Nat.eq_of_testBit_eq fun i => by
    rw [Nat.testBit_land, Nat.testBit_mod_two_pow]
    cases set.testBit i <;> simp
  have nonempty : 0 < set % 2 ^ set.log2 := by
    have below : set < 2 ^ (set.log2 + 1) := Nat.lt_log2_self
    rw [Nat.pow_succ] at below
    have rest : set % 2 ^ set.log2 = set - 2 ^ set.log2 := by
      rw [Nat.mod_eq_sub_mod top, Nat.mod_eq_of_lt (by omega)]
    have := several set.log2
    omega
  have high : 2 ^ set.log2 ≤ set ^^^ set % 2 ^ set.log2 := by
    refine Nat.le_of_not_lt fun h => ?_
    have := Nat.xor_lt_two_pow h low
    rw [Nat.xor_assoc, Nat.xor_self, Nat.xor_zero] at this
    omega
  exact ⟨_, _, mem_halves.2 ⟨by omega, rfl, part, nonempty, by omega⟩⟩

end Halves

namespace Network

variable {network : Network} {model : CostModel} {pool : Pool}

theorem size_bestTable (network : Network) (model : CostModel) (count : Nat) :
    (network.bestTable model count).size = count := by
  induction count with
  | zero => rfl
  | succ count ih => simp [bestTable, ih]

theorem getElem?_bestTable {count set : Nat} (h : set < count) :
    (network.bestTable model count)[set]? =
      some (network.bestOf model (network.bestTable model set) set) := by
  induction count with
  | zero => omega
  | succ count ih =>
    have size := size_bestTable network model count
    rw [bestTable]
    rcases Nat.lt_succ_iff_lt_or_eq.1 h with hlt | rfl
    · rw [Array.getElem?_push_lt (by omega), ← ih hlt, Array.getElem?_eq_getElem]
    · rw [Array.getElem?_push, if_pos size.symm]

theorem join_getElem?_bestTable {set half : Nat} (lt : half < set) :
    (network.bestTable model set)[half]?.join =
      network.bestOf model (network.bestTable model half) half := by
  rw [getElem?_bestTable lt]
  rfl

theorem covers_join {set left right : Nat} (h : (left, right) ∈ halves set) {l r : Tree}
    (hl : l.Covers left) (hr : r.Covers right) : (Tree.join l r).Covers set := by
  have bits := testBit_of_mem_halves h
  refine ⟨List.nodup_append.2 ⟨hl.1, hr.1, ?_⟩, fun id => ?_⟩
  · rintro id hid _ hid' rfl
    exact (bits id).2 ⟨(hl.2 id).1 hid, (hr.2 id).1 hid'⟩
  · rw [Tree.leaves, List.mem_append, hl.2, hr.2, (bits id).1, Bool.or_eq_true]

/-- What `bestOf` chooses from for a set of several terms. -/
def candidates (network : Network) (model : CostModel) (table : Array (Option SubsetBest))
    (set : Nat) : List SubsetBest :=
  (halves set).filterMap fun (left, right) => do
    return network.joinBest model (network.setLabels set) (← table[left]?.join)
      (← table[right]?.join)

theorem mem_candidates {table : Array (Option SubsetBest)} {set : Nat} {best : SubsetBest} :
    best ∈ network.candidates model table set ↔
      ∃ left right l r, (left, right) ∈ halves set ∧ table[left]?.join = some l ∧
        table[right]?.join = some r ∧
        network.joinBest model (network.setLabels set) l r = best := by
  simp [candidates, Option.bind_eq_some_iff]

theorem bestOf_two_pow (model : CostModel) (table : Array (Option SubsetBest)) {id : Nat}
    (h : id < network.terms.length) :
    network.bestOf model table (2 ^ id) =
      some ⟨.zero, Labels.ascending network.terms[id], .term id⟩ := by
  rw [bestOf]
  split
  · rename_i term i found
    have same : 2 ^ i = 2 ^ id := by simpa [Nat.one_shiftLeft] using List.find?_some found
    obtain rfl : i = id := Nat.pow_right_injective (Nat.le_refl 2) same
    have hm := List.mk_mem_zipIdx_iff_getElem?.1 (List.mem_of_find?_eq_some found)
    rw [List.getElem?_eq_getElem h, Option.some.injEq] at hm
    rw [hm]
  · rename_i missing
    have other := List.find?_eq_none.1 missing (network.terms[id], id)
      (List.mk_mem_zipIdx_iff_getElem?.2 (List.getElem?_eq_getElem h))
    simp [Nat.one_shiftLeft] at other

theorem bestOf_several (model : CostModel) (table : Array (Option SubsetBest)) {set : Nat}
    (several : ∀ i, 2 ^ i ≠ set) :
    network.bestOf model table set =
      (network.candidates model table set).minOn? fun best => best.cost.rank := by
  rw [bestOf]
  split
  · rename_i term i found
    exact absurd (by simpa [Nat.one_shiftLeft] using List.find?_some found) (several i)
  · rfl

/-- A table with an entry for every smaller set has both halves of a set. -/
theorem exists_entries_of_forall {table : Array (Option SubsetBest)} {set left right : Nat}
    (entry : ∀ half, 0 < half → half < set →
      ∃ best, table[half]?.join = some best ∧ best.tree.Covers half)
    (h : (left, right) ∈ halves set) :
    ∃ l r, table[left]?.join = some l ∧ l.tree.Covers left ∧
      table[right]?.join = some r ∧ r.tree.Covers right := by
  obtain ⟨hlt, -, -, pos, lt⟩ := mem_halves.1 h
  obtain ⟨l, hl, coversLeft⟩ := entry left pos hlt
  obtain ⟨r, hr, coversRight⟩ := entry right (by omega) (lt_of_mem_halves h)
  exact ⟨l, r, hl, coversLeft, hr, coversRight⟩

/-- Every set of terms gets a tree that covers it. -/
theorem exists_bestOf (network : Network) (model : CostModel) {set : Nat} (pos : 0 < set)
    (below : set < 2 ^ network.terms.length) :
    ∃ best, network.bestOf model (network.bestTable model set) set = some best ∧
      best.tree.Covers set := by
  induction set using Nat.strongRecOn with
  | ind set ih =>
    by_cases several : ∀ i, 2 ^ i ≠ set
    · have entry (half : Nat) (pos : 0 < half) (lt : half < set) :
          ∃ best, (network.bestTable model set)[half]?.join = some best ∧
            best.tree.Covers half := by
        rw [join_getElem?_bestTable lt]
        exact ih half lt pos (by omega)
      have nonempty : network.candidates model (network.bestTable model set) set ≠ [] := by
        obtain ⟨left, right, h⟩ := exists_mem_halves pos several
        obtain ⟨l, r, hl, -, hr, -⟩ := exists_entries_of_forall entry h
        exact List.ne_nil_of_mem (mem_candidates.2 ⟨left, right, l, r, h, hl, hr, rfl⟩)
      have some := List.isSome_minOn?_iff (f := fun best : SubsetBest => best.cost.rank).2 nonempty
      obtain ⟨best, hbest⟩ := Option.isSome_iff_exists.1 some
      refine ⟨best, by rw [bestOf_several model _ several, hbest], ?_⟩
      obtain ⟨left, right, l, r, h, hl, hr, rfl⟩ := mem_candidates.1 (List.minOn?_mem hbest)
      obtain ⟨l', r', hl', coversLeft, hr', coversRight⟩ := exists_entries_of_forall entry h
      obtain rfl := Option.some.inj (hl.symm.trans hl')
      obtain rfl := Option.some.inj (hr.symm.trans hr')
      exact covers_join h coversLeft coversRight
    · simp only [ne_eq, not_forall, not_not] at several
      obtain ⟨id, rfl⟩ := several
      have hlt := (Nat.pow_lt_pow_iff_right (by omega)).1 below
      refine ⟨_, bestOf_two_pow model _ hlt, by simp [Tree.leaves], fun other => ?_⟩
      simp [Tree.leaves, Nat.testBit_two_pow, eq_comm]

/-- The table has both halves of every set of terms, so that no split is left out of the
candidates. -/
theorem exists_entries (network : Network) (model : CostModel) {set left right : Nat}
    (below : set < 2 ^ network.terms.length) (h : (left, right) ∈ halves set) :
    ∃ l r, (network.bestTable model set)[left]?.join = some l ∧ l.tree.Covers left ∧
      (network.bestTable model set)[right]?.join = some r ∧ r.tree.Covers right := by
  refine exists_entries_of_forall (fun half pos lt => ?_) h
  rw [join_getElem?_bestTable lt]
  exact exists_bestOf network model pos (by omega)

theorem exists_bestTree? (model : CostModel) (terms : network.terms ≠ []) :
    ∃ tree, network.bestTree? model = some tree ∧
      tree.leaves.Perm (List.range network.terms.length) := by
  have pos := List.length_pos_of_ne_nil terms
  have two : 2 ≤ 2 ^ network.terms.length := Nat.le_pow pos
  obtain ⟨best, hbest, nodup, mem⟩ := exists_bestOf network model
    (by omega : 0 < 2 ^ network.terms.length - 1) (by omega)
  refine ⟨best.tree, ?_, (List.perm_ext_iff_of_nodup nodup List.nodup_range).2 fun id => ?_⟩
  · rw [bestTree?, Nat.one_shiftLeft, getElem?_bestTable (by omega), hbest]
    rfl
  · rw [mem, Nat.testBit_two_pow_sub_one, decide_eq_true_eq, List.mem_range]

/-- The steps of a tree leave its tensor and do not touch the terms outside it. -/
theorem contractTree_replays (network : Network) (model : CostModel) {tree : Tree}
    (valid : pool.Valid) (live : ∀ id ∈ tree.leaves, id ∈ pool.live)
    (distinct : tree.leaves.Nodup) :
    ∃ made pool' steps, network.contractTree model pool tree = .ok (made, pool', steps) ∧
      Replays network model pool steps pool' ∧ steps.length + 1 = tree.leaves.length ∧
      made ∈ pool'.live ∧ ∀ id ∈ pool.live, id ∉ tree.leaves → id ∈ pool'.live ∧ id ≠ made := by
  induction tree generalizing pool with
  | term id =>
    refine ⟨id, pool, [], rfl, .nil, rfl, live id (by simp [Tree.leaves]), fun other h hne => ?_⟩
    exact ⟨h, by simpa [Tree.leaves] using hne⟩
  | join left right ihl ihr =>
    rw [Tree.leaves] at live distinct
    obtain ⟨nodupLeft, nodupRight, disjoint⟩ := List.nodup_append.1 distinct
    obtain ⟨a, poolA, stepsA, hA, replaysA, lengthA, liveA, restA⟩ :=
      ihl valid (fun id hm => live id (List.mem_append_left _ hm)) nodupLeft
    have apart {id : Nat} (hm : id ∈ right.leaves) : id ∈ poolA.live ∧ id ≠ a :=
      restA id (live id (List.mem_append_right _ hm)) fun h => disjoint id h id hm rfl
    have validA := replaysA.valid valid
    obtain ⟨b, poolB, stepsB, hB, replaysB, lengthB, liveB, restB⟩ :=
      ihr validA (fun id hm => (apart hm).1) nodupRight
    have validB := replaysB.valid validA
    obtain ⟨liveA, ne⟩ := restB a liveA fun hm => (apart hm).2 rfl
    obtain ⟨step, cost, weigh, rfl, rfl⟩ := exists_weigh network model validB liveA liveB
    have last : Replays network model poolB [step]
        (poolB.contracted step.left step.right step.result) := .cons liveA liveB ne weigh .nil
    refine ⟨poolB.made.length, _, stepsA ++ stepsB ++ [step], ?_, (replaysA.append replaysB).append last,
      ?_, by simp [Pool.contracted], fun id hid hout => ?_⟩
    · rw [contractTree, hA]
      simp only [bind, Except.bind, hB, weigh, validB.contract_eq liveA liveB]
      rfl
    · simp only [List.length_append, List.length_singleton, Tree.leaves]
      omega
    · rw [Tree.leaves, List.mem_append, not_or] at hout
      obtain ⟨inA, neA⟩ := restA id hid hout.1
      obtain ⟨inB, neB⟩ := restB id inA hout.2
      have := validB.lt_length inB
      exact ⟨by simp [Pool.contracted, inB, neA, neB], by omega⟩

theorem best_eq_ok {tree : Tree} {made : Nat} {steps : List Contraction}
    (few : network.terms.length ≤ subsetLimit) (htree : network.bestTree? model = some tree)
    (hsteps : network.contractTree model (.ofTerms network.terms) tree = .ok (made, pool, steps)) :
    network.best model = .ok ⟨steps⟩ := by
  rw [best, if_neg (Nat.not_lt.2 few), htree]
  simp only [bind, Except.bind, hsteps]
  rfl

theorem best_replays (model : CostModel) (terms : network.terms ≠ []) :
    ∃ path pool, network.best model = .ok path ∧
      Replays network model (.ofTerms network.terms) path.steps pool ∧
      path.steps.length = network.terms.length - 1 := by
  by_cases many : subsetLimit < network.terms.length
  · rw [best, if_pos many]
    exact cheapestFirst_replays model terms
  · obtain ⟨tree, htree, perm⟩ := exists_bestTree? model terms
    obtain ⟨made, pool, steps, hsteps, replays, length, -⟩ := contractTree_replays network model
      (Pool.ofTerms_valid network.terms) (fun id hm => perm.mem_iff.1 hm)
      (perm.nodup_iff.2 List.nodup_range)
    rw [perm.length_eq, List.length_range] at length
    exact ⟨⟨steps⟩, pool, best_eq_ok (Nat.le_of_not_lt many) htree hsteps, replays,
      Nat.eq_sub_of_add_eq length⟩

/-- Every strategy finds steps that leave one tensor. -/
theorem path_replays (model : CostModel) (strategy : Strategy) (terms : network.terms ≠ []) :
    ∃ path pool, network.path model strategy = .ok path ∧
      Replays network model (.ofTerms network.terms) path.steps pool ∧
      path.steps.length = network.terms.length - 1 ∧ pool.live.length = 1 := by
  have replays : ∃ path pool, network.path model strategy = .ok path ∧
      Replays network model (.ofTerms network.terms) path.steps pool ∧
      path.steps.length = network.terms.length - 1 := by
    rw [path]
    cases strategy.forTerms network.terms.length with
    | leftToRight => exact leftToRight_replays model terms
    | optimal => exact best_replays model terms
    | greedy | auto => exact cheapestFirst_replays model terms
  obtain ⟨path, pool, h, replays, length⟩ := replays
  have live := replays.length_live (Pool.ofTerms_valid network.terms)
  have pos := List.length_pos_of_ne_nil terms
  have all : (Pool.ofTerms network.terms).live.length = network.terms.length := List.length_range
  exact ⟨path, pool, h, replays, length, by omega⟩

end Network

end Einsum
