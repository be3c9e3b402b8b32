import Einsum.Proofs.CompletePaths

/-! What the path of cheapest pairs chooses.
At every step the pair that is contracted costs no more in total than any other pair at hand,
and less than those before it, where pairs are ordered by the place of their first tensor and
then by that of the second. Totals are clamped, so that equal ones are common and the order
matters. -/

namespace Einsum

section Pairs

variable {β γ : Type}

/-- Pairs are listed by the place of the first element and then by that of the second. -/
theorem pairwise_pairsOf {place : β → Nat} {xs : List β}
    (ascending : xs.Pairwise fun a b => place a < place b) :
    (pairsOf xs).Pairwise fun p q =>
      place p.1 < place q.1 ∨ place p.1 = place q.1 ∧ place p.2 < place q.2 := by
  induction xs with
  | nil => exact .nil
  | cons a rest ih =>
    obtain ⟨later, ascending⟩ := List.pairwise_cons.1 ascending
    rw [pairsOf]
    refine List.pairwise_append.2 ⟨List.pairwise_map.2 (ascending.imp fun lt => .inr ⟨rfl, lt⟩),
      ih ascending, fun p hp q hq => ?_⟩
    obtain ⟨b, -, rfl⟩ := List.mem_map.1 hp
    exact .inl (later q.1 ((sublist_of_mem_pairsOf hq).subset List.mem_cons_self))

theorem mem_pairsOf_of_lt {a b : β} {xs : List β} {i j : Nat} (lt : i < j) (ha : xs[i]? = some a)
    (hb : xs[j]? = some b) : (a, b) ∈ pairsOf xs := by
  induction xs generalizing i j with
  | nil => cases ha
  | cons x rest ih =>
    obtain ⟨j, rfl⟩ := Nat.exists_eq_succ_of_ne_zero (Nat.ne_of_gt (Nat.zero_lt_of_lt lt))
    rw [List.getElem?_cons_succ] at hb
    rw [pairsOf, List.mem_append]
    cases i with
    | zero =>
      obtain rfl : x = a := by simpa using ha
      exact .inl (List.mem_map_of_mem (List.mem_of_getElem? hb))
    | succ i => exact .inr (ih (Nat.lt_of_succ_lt_succ lt) (by simpa using ha) hb)

/-- Results that tell what they were computed from. -/
theorem map_of_mapM {f : β → Except Error γ} (origin : γ → β) {xs : List β} {ys : List γ}
    (h : xs.mapM f = .ok ys) (told : ∀ x ∈ xs, ∀ y, f x = .ok y → origin y = x) :
    ys.map origin = xs ∧ ∀ y ∈ ys, f (origin y) = .ok y := by
  induction xs generalizing ys with
  | nil =>
    obtain rfl : [] = ys := Except.ok.inj h
    exact ⟨rfl, by simp⟩
  | cons x xs ih =>
    rw [List.mapM_cons] at h
    obtain ⟨y, hy, h⟩ := bind_eq_ok_iff.1 h
    obtain ⟨ys', hys, h⟩ := bind_eq_ok_iff.1 h
    obtain rfl : y :: ys' = ys := Except.ok.inj h
    obtain ⟨first, told⟩ := List.forall_mem_cons.1 told
    obtain ⟨origins, results⟩ := ih hys told
    have here := first y hy
    refine ⟨by rw [List.map_cons, origins, here], List.forall_mem_cons.2 ⟨?_, results⟩⟩
    rw [here, hy]

/-- Of the least elements the first one is chosen. -/
theorem lt_of_minOn? {before : β → β → Prop} (asymm : ∀ x y, before x y → ¬before y x)
    {weight : β → Nat} {xs : List β} {best x : β} (ordered : xs.Pairwise before)
    (h : xs.minOn? weight = some best) (hm : x ∈ xs) (hx : before x best) :
    weight best < weight x := by
  induction xs generalizing best with
  | nil => cases hm
  | cons y xs ih =>
    obtain ⟨first, ordered⟩ := List.pairwise_cons.1 ordered
    -- nothing comes before the head of the list
    have later : y ≠ best := by
      rintro rfl
      rcases List.mem_cons.1 hm with rfl | hm
      · exact asymm _ _ hx hx
      · exact asymm _ _ hx (first x hm)
    rw [List.minOn?_cons] at h
    cases rest : xs.minOn? weight with
    | none =>
      rw [rest] at h
      exact absurd (Option.some.inj h) later
    | some least =>
      rw [rest, Option.elim_some, minOn] at h
      split at h
      · exact absurd (Option.some.inj h) later
      · rename_i more
        obtain rfl := Option.some.inj h
        rcases List.mem_cons.1 hm with rfl | hm
        · exact Nat.lt_of_not_le more
        · exact ih ordered rest hm hx

end Pairs

namespace Network

variable {network : Network} {model : CostModel} {pool pool' : Pool}

/-- The step contracts the tensors at the places `i < j` of those at hand, for the least total of
all pairs and for less than the pairs before this one. -/
structure Cheapest (network : Network) (model : CostModel) (pool : Pool) (step : Contraction)
    (cost : Cost) (i j : Nat) : Prop where
  left : pool.live[i]? = some step.left
  right : pool.live[j]? = some step.right
  ordered : i < j
  weigh : network.weigh model pool step.left step.right = .ok (step, cost)
  least : ∀ i' j' a b, pool.live[i']? = some a → pool.live[j']? = some b → i' < j' →
    ∃ other cost', network.weigh model pool a b = .ok (other, cost') ∧ cost.total ≤ cost'.total ∧
      (i' < i ∨ i' = i ∧ j' < j → cost.total < cost'.total)

theorem Cheapest.ne {step : Contraction} {cost : Cost} {i j : Nat} (valid : pool.Valid)
    (cheapest : network.Cheapest model pool step cost i j) : step.left ≠ step.right := by
  intro same
  have inside := (List.getElem?_eq_some_iff.1 cheapest.left).1
  have places := (List.getElem?_inj inside valid.nodup).1
    (cheapest.left.trans (same ▸ cheapest.right.symm))
  exact Nat.ne_of_lt cheapest.ordered places

/-- One step: the pairs at hand are weighed in the order of their places, and the first of the
cheapest ones is taken. -/
theorem exists_cheapest {step : Contraction} (valid : pool.Valid)
    (h : network.cheapestStep model pool = .ok (some step)) :
    ∃ cost i j, network.Cheapest model pool step cost i j := by
  rw [cheapestStep] at h
  obtain ⟨weighed, hw, h⟩ := bind_eq_ok_iff.1 h
  obtain ⟨⟨_, cost⟩, best, rfl⟩ := Option.map_eq_some_iff.1 (Except.ok.inj h)
  let origin (entry : Contraction × Cost) : Nat × Nat := (entry.1.left, entry.1.right)
  let place := pool.live.idxOf
  have place_eq {i id : Nat} (found : pool.live[i]? = some id) : place id = i := by
    have again := List.getElem?_idxOf (List.mem_of_getElem? found)
    exact (List.getElem?_inj (List.idxOf_lt_length_of_mem (List.mem_of_getElem? found))
      valid.nodup).1 (again.trans found.symm)
  have ascending : pool.live.Pairwise fun a b => place a < place b := by
    refine List.pairwise_iff_getElem.2 fun i j hi hj lt => ?_
    rwa [place_eq (List.getElem?_eq_getElem hi), place_eq (List.getElem?_eq_getElem hj)]
  have live {pair : Nat × Nat} (hm : pair ∈ pairsOf pool.live) :
      pair.1 ∈ pool.live ∧ pair.2 ∈ pool.live ∧ place pair.1 < place pair.2 := by
    have sublist := sublist_of_mem_pairsOf hm
    exact ⟨sublist.subset (by simp), sublist.subset (by simp),
      by simpa using ascending.sublist sublist⟩
  obtain ⟨origins, results⟩ := map_of_mapM origin hw fun pair hm entry h => by
    obtain ⟨ha, hb, -⟩ := live hm
    obtain ⟨left, right, -⟩ := exists_keep valid ha hb h
    exact Prod.ext left right
  have ordered := pairwise_pairsOf ascending
  rw [← origins, List.pairwise_map] at ordered
  have chosen := List.minOn?_mem best
  obtain ⟨ha, hb, lt⟩ := live (origins ▸ List.mem_map_of_mem chosen)
  refine ⟨cost, _, _, List.getElem?_idxOf ha, List.getElem?_idxOf hb, lt, results _ chosen,
    fun i' j' a b hi hj lt' => ?_⟩
  have pair := mem_pairsOf_of_lt lt' hi hj
  rw [← origins] at pair
  obtain ⟨⟨other, cost'⟩, hm, same⟩ := List.mem_map.1 pair
  have weigh := results _ hm
  rw [same] at weigh
  have least := le_of_minOn? best hm
  refine ⟨other, cost', weigh, least, fun first => ?_⟩
  obtain ⟨rfl, rfl⟩ := Prod.mk.inj same
  rw [← place_eq hi, ← place_eq hj] at first
  have strict := lt_of_minOn? (fun x y hx hy => by omega) ordered best hm first
  exact strict

/-- All steps: each is the first cheapest one in the pool that the steps before it leave. -/
theorem cheapestSteps_cheapest {count : Nat} {steps : List Contraction} (valid : pool.Valid)
    (h : network.cheapestSteps model count pool = .ok steps) {k : Nat} {step : Contraction}
    (hk : steps[k]? = some step) :
    ∃ pool' cost i j, Replays network model pool (steps.take k) pool' ∧
      network.Cheapest model pool' step cost i j := by
  induction count generalizing pool steps k with
  | zero =>
    obtain rfl : [] = steps := Except.ok.inj h
    cases hk
  | succ count ih =>
    rw [cheapestSteps] at h
    obtain ⟨chosen, hc, h⟩ := bind_eq_ok_iff.1 h
    cases chosen with
    | none =>
      obtain rfl : [] = steps := Except.ok.inj h
      cases hk
    | some first =>
      obtain ⟨cost, i, j, cheapest⟩ := exists_cheapest valid hc
      have left := List.mem_of_getElem? cheapest.left
      have right := List.mem_of_getElem? cheapest.right
      obtain ⟨next, hnext, h⟩ := bind_eq_ok_iff.1 h
      rw [valid.contract_eq left right] at hnext
      obtain rfl := Except.ok.inj hnext
      obtain ⟨rest, hrest, h⟩ := bind_eq_ok_iff.1 h
      obtain rfl : first :: rest = steps := Except.ok.inj h
      cases k with
      | zero =>
        obtain rfl : first = step := by simpa using hk
        exact ⟨pool, cost, i, j, .nil, cheapest⟩
      | succ k =>
        obtain ⟨pool', cost', i', j', replays, later⟩ :=
          ih (valid.contracted _ _ _) hrest (by simpa using hk)
        have ne := cheapest.ne valid
        exact ⟨pool', cost', i', j', .cons left right ne cheapest.weigh replays, later⟩

/-- Every step of the path of cheapest pairs contracts, in the pool that the steps before it
leave, two tensors whose total is no more than that of any other pair at hand, and less than
that of the pairs before this one. -/
theorem cheapestFirst_steps_cheapest (network : Network) (model : CostModel)
    (several : 2 ≤ network.terms.length) :
    ∃ path, network.cheapestFirst model = .ok path ∧
      path.steps.length = network.terms.length - 1 ∧
      ∀ k step, path.steps[k]? = some step → ∃ pool cost i j,
        network.replay model (.ofTerms network.terms) (path.pairs.take k) =
          .ok (path.steps.take k, pool) ∧
        network.Cheapest model pool step cost i j := by
  have terms : network.terms ≠ [] := List.ne_nil_of_length_pos (by omega)
  have valid := Pool.ofTerms_valid network.terms
  obtain ⟨path, -, found, -, length⟩ := cheapestFirst_replays model terms
  refine ⟨path, found, length, fun k step hk => ?_⟩
  rw [cheapestFirst] at found
  obtain ⟨steps, hsteps, made⟩ := bind_eq_ok_iff.1 found
  obtain rfl := Except.ok.inj made
  obtain ⟨pool, cost, i, j, replays, cheapest⟩ := cheapestSteps_cheapest valid hsteps hk
  refine ⟨pool, cost, i, j, ?_, cheapest⟩
  rw [Path.pairs, ← List.map_take]
  exact replays.replay_eq valid

/-- Where all totals are too large to be told apart, the first pair wins. -/
theorem cheapestFirst_steps_cheapest_ties :
    let sizes : SizeTable := ⟨[('i', 2 ^ 40), ('j', 2 ^ 40), ('k', 2 ^ 40), ('l', 2 ^ 40)]⟩
    let network : Network := ⟨[['i', 'j'], ['j', 'k'], ['k', 'l']], sizes, ['i', 'l']⟩
    2 ≤ network.terms.length ∧ ∃ path, network.cheapestFirst .cpu = .ok path ∧
      path.pairs = [(0, 1), (2, 3)] ∧
      ∀ k step, path.steps[k]? = some step → ∃ pool cost i j,
        network.replay .cpu (.ofTerms network.terms) (path.pairs.take k) =
          .ok (path.steps.take k, pool) ∧
        network.Cheapest .cpu pool step cost i j := by
  intro sizes network
  have several : 2 ≤ network.terms.length := by decide
  have pairs : (·.pairs) <$> network.cheapestFirst .cpu = .ok [(0, 1), (2, 3)] := by decide +kernel
  obtain ⟨path, found, -, steps⟩ := cheapestFirst_steps_cheapest network .cpu several
  rw [found] at pairs
  exact ⟨several, path, found, Except.ok.inj pairs, steps⟩

end Network

end Einsum
