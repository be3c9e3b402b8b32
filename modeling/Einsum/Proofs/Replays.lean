import Einsum.Path.Cheapest
import Einsum.Proofs.Pools

/-! Contractions that a pool can follow.
A list of steps replays on a pool if every step contracts two different live tensors and
carries what weighing them gives. Each step takes one tensor away. The fixed order and the
order of cheapest pairs find such steps until one tensor is left. -/

namespace Einsum

theorem mapM_eq_ok {β γ : Type} {f : β → Except Error γ} {xs : List β}
    (h : ∀ x ∈ xs, ∃ y, f x = .ok y) :
    ∃ ys, xs.mapM f = .ok ys ∧ ys.length = xs.length ∧ ∀ y ∈ ys, ∃ x ∈ xs, f x = .ok y := by
  induction xs with
  | nil => exact ⟨[], rfl, rfl, by simp⟩
  | cons x xs ih =>
    obtain ⟨⟨y, hy⟩, h⟩ := List.forall_mem_cons.1 h
    obtain ⟨ys, hys, length, mem⟩ := ih h
    refine ⟨y :: ys, ?_, by simp [length], ?_⟩
    · rw [List.mapM_cons, hy, hys]
      rfl
    · intro z hz
      rcases List.mem_cons.1 hz with rfl | hz
      · exact ⟨x, by simp, hy⟩
      · obtain ⟨x', hx', hz⟩ := mem z hz
        exact ⟨x', List.mem_cons_of_mem x hx', hz⟩

theorem le_of_minOn? {β : Type} {weight : β → Nat} {xs : List β} {best x : β}
    (h : xs.minOn? weight = some best) (hm : x ∈ xs) : weight best ≤ weight x := by
  have least := List.apply_get_minOn?_le_of_mem (f := weight) hm
  simpa [h] using least

namespace Network

variable {network : Network} {model : CostModel} {pool pool' pool'' : Pool} {a b : Nat}
  {steps steps' : List Contraction}

/-- Steps that lead from one pool to another. -/
inductive Replays (network : Network) (model : CostModel) :
    Pool → List Contraction → Pool → Prop
  | nil {pool : Pool} : Replays network model pool [] pool
  | cons {pool pool' : Pool} {step : Contraction} {cost : Cost} {steps : List Contraction}
      (left : step.left ∈ pool.live) (right : step.right ∈ pool.live)
      (ne : step.left ≠ step.right)
      (weigh : network.weigh model pool step.left step.right = .ok (step, cost))
      (replays : Replays network model (pool.contracted step.left step.right step.result)
        steps pool') :
    Replays network model pool (step :: steps) pool'

theorem weigh_eq (network : Network) (model : CostModel) (valid : pool.Valid)
    (ha : a ∈ pool.live) (hb : b ∈ pool.live) {pairing : Pairing}
    (hp : pool.pairing a b network.output = .ok pairing) :
    let cost := model.pairwise network.sizes (pool.labelsOf a) (pool.labelsOf b) pairing
    network.weigh model pool a b = .ok (⟨a, b, pairing, cost.flops⟩, cost) := by
  rw [weigh, hp, valid.labels_eq ha, valid.labels_eq hb]
  rfl

theorem exists_weigh (network : Network) (model : CostModel) (valid : pool.Valid)
    (ha : a ∈ pool.live) (hb : b ∈ pool.live) :
    ∃ step cost, network.weigh model pool a b = .ok (step, cost) ∧ step.left = a ∧
      step.right = b := by
  obtain ⟨keep, hp, -⟩ := valid.exists_pairing ha hb network.output
  exact ⟨_, _, weigh_eq network model valid ha hb hp, rfl, rfl⟩

theorem exists_keep (valid : pool.Valid) (ha : a ∈ pool.live) (hb : b ∈ pool.live)
    {step : Contraction} {cost : Cost} (h : network.weigh model pool a b = .ok (step, cost)) :
    step.left = a ∧ step.right = b ∧
      ∃ keep, step.labels = .split (pool.labelsOf a) (pool.labelsOf b) keep ∧
        ∀ c, keep c = true ↔
          c ∈ network.output ∨ ∃ id ∈ pool.live, id ≠ a ∧ id ≠ b ∧ c ∈ pool.labelsOf id := by
  obtain ⟨keep, hp, kept⟩ := valid.exists_pairing ha hb network.output
  rw [weigh_eq network model valid ha hb hp, Except.ok.injEq, Prod.mk.injEq] at h
  obtain ⟨rfl, -⟩ := h
  exact ⟨rfl, rfl, keep, rfl, kept⟩

theorem length_live_contracted (valid : pool.Valid) (ha : a ∈ pool.live) (hb : b ∈ pool.live)
    (ne : a ≠ b) (result : Labels) :
    (pool.contracted a b result).live.length + 1 = pool.live.length := by
  simp [Pool.contracted, (valid.live_perm ha hb ne).length_eq]

namespace Replays

theorem append (first : Replays network model pool steps pool')
    (second : Replays network model pool' steps' pool'') :
    Replays network model pool (steps ++ steps') pool'' := by
  induction first with
  | nil => exact second
  | cons left right ne weigh _ ih => exact .cons left right ne weigh (ih second)

theorem valid (replays : Replays network model pool steps pool') (valid : pool.Valid) :
    pool'.Valid := by
  induction replays with
  | nil => exact valid
  | cons _ _ _ _ _ ih => exact ih (valid.contracted _ _ _)

theorem length_live (replays : Replays network model pool steps pool') (valid : pool.Valid) :
    pool'.live.length + steps.length = pool.live.length := by
  induction replays with
  | nil => rfl
  | @cons pool _ step _ steps left right ne _ _ ih =>
    have first := length_live_contracted valid left right ne step.result
    have rest := ih (valid.contracted _ _ _)
    rw [List.length_cons]
    omega

theorem length_made (replays : Replays network model pool steps pool') :
    pool'.made.length = pool.made.length + steps.length := by
  induction replays with
  | nil => rfl
  | cons _ _ _ _ _ ih =>
    rw [ih, Pool.length_made_contracted, List.length_cons]
    omega

theorem newest_live (replays : Replays network model pool steps pool')
    (h : pool.made.length - 1 ∈ pool.live) : pool'.made.length - 1 ∈ pool'.live := by
  induction replays with
  | nil => exact h
  | cons _ _ _ _ _ ih =>
    refine ih ?_
    rw [Pool.length_made_contracted]
    simp [Pool.contracted]

end Replays

/-- Tensors contracted one after the other with the first one. -/
theorem foldInto_replays (network : Network) (model : CostModel) {rest : List Nat} {acc : Nat}
    (valid : pool.Valid) (acc_live : acc ∈ pool.live) (live : ∀ id ∈ rest, id ∈ pool.live)
    (distinct : (acc :: rest).Nodup) :
    ∃ steps pool', network.foldInto model pool acc rest = .ok steps ∧
      Replays network model pool steps pool' ∧ steps.length = rest.length := by
  induction rest generalizing pool acc with
  | nil => exact ⟨[], pool, rfl, .nil, rfl⟩
  | cons next rest ih =>
    obtain ⟨next_live, rest_live⟩ := List.forall_mem_cons.1 live
    obtain ⟨hacc, hnext⟩ := List.nodup_cons.1 distinct
    obtain ⟨hrest, nodup⟩ := List.nodup_cons.1 hnext
    rw [List.mem_cons, not_or] at hacc
    obtain ⟨step, cost, weigh, rfl, rfl⟩ := exists_weigh network model valid acc_live next_live
    have others : ∀ id ∈ rest, id ∈ (pool.contracted step.left step.right step.result).live := by
      intro id hm
      have hl : id ≠ step.left := ne_of_mem_of_not_mem hm hacc.2
      have hr : id ≠ step.right := ne_of_mem_of_not_mem hm hrest
      simp [Pool.contracted, rest_live id hm, hl, hr]
    have new : pool.made.length ∉ rest := fun hm => by
      have := valid.lt_length (rest_live _ hm)
      omega
    have made : pool.made.length ∈ (pool.contracted step.left step.right step.result).live := by
      simp [Pool.contracted]
    obtain ⟨steps, pool', hfold, replays, length⟩ :=
      ih (valid.contracted _ _ step.result) made others (List.nodup_cons.2 ⟨new, nodup⟩)
    refine ⟨step :: steps, pool', ?_, .cons acc_live next_live hacc.1 weigh replays, by simp [length]⟩
    rw [foldInto, weigh]
    simp only [bind, Except.bind, valid.contract_eq acc_live next_live, hfold]
    rfl

end Network

theorem sublist_of_mem_pairsOf {α : Type} {a b : α} {xs : List α} (h : (a, b) ∈ pairsOf xs) :
    [a, b].Sublist xs := by
  induction xs with
  | nil => simp [pairsOf] at h
  | cons x xs ih =>
    rw [pairsOf, List.mem_append] at h
    rcases h with h | h
    · obtain ⟨y, hy, heq⟩ := List.mem_map.1 h
      obtain ⟨rfl, rfl⟩ := Prod.mk.inj heq
      exact (List.singleton_sublist.2 hy).cons_cons x
    · exact (ih h).cons x

theorem pairsOf_ne_nil {α : Type} {xs : List α} (h : 2 ≤ xs.length) : pairsOf xs ≠ [] := by
  match xs with
  | x :: y :: xs => simp [pairsOf]

namespace Network

variable {pool : Pool}

theorem exists_cheapestStep (network : Network) (model : CostModel) (valid : pool.Valid)
    (two : 2 ≤ pool.live.length) :
    ∃ step cost, network.cheapestStep model pool = .ok (some step) ∧
      step.left ∈ pool.live ∧ step.right ∈ pool.live ∧ step.left ≠ step.right ∧
      network.weigh model pool step.left step.right = .ok (step, cost) := by
  have pairs {a b : Nat} (h : (a, b) ∈ pairsOf pool.live) :
      a ∈ pool.live ∧ b ∈ pool.live ∧ a ≠ b := by
    have sublist := sublist_of_mem_pairsOf h
    exact ⟨sublist.subset (by simp), sublist.subset (by simp),
      by simpa using valid.nodup.sublist sublist⟩
  have succeeds : ∀ pair ∈ pairsOf pool.live,
      ∃ weighed, network.weigh model pool pair.1 pair.2 = .ok weighed := by
    intro (a, b) h
    obtain ⟨ha, hb, -⟩ := pairs h
    obtain ⟨step, cost, weigh, -⟩ := exists_weigh network model valid ha hb
    exact ⟨_, weigh⟩
  obtain ⟨weighed, hw, length, mem⟩ := mapM_eq_ok succeeds
  have nonempty : weighed ≠ [] := fun h => by
    rw [h] at length
    exact pairsOf_ne_nil two (List.length_eq_zero_iff.1 length.symm)
  have chosen : network.cheapestStep model pool =
      .ok ((weighed.minOn? fun pair => pair.2.rank).map (·.1)) := by
    rw [cheapestStep, hw]
    rfl
  obtain ⟨⟨step, cost⟩, best⟩ := Option.isSome_iff_exists.1
    (List.isSome_minOn?_iff.2 nonempty : (weighed.minOn? fun pair => pair.2.rank).isSome)
  obtain ⟨⟨a, b⟩, hm, weigh⟩ := mem _ (List.minOn?_mem best)
  obtain ⟨ha, hb, ne⟩ := pairs hm
  obtain ⟨rfl, rfl, -⟩ := exists_keep valid ha hb weigh
  exact ⟨step, cost, by rw [chosen, best]; rfl, ha, hb, ne, weigh⟩

theorem cheapestSteps_replays (network : Network) (model : CostModel) {count : Nat}
    (valid : pool.Valid) (enough : count < pool.live.length) :
    ∃ steps pool', network.cheapestSteps model count pool = .ok steps ∧
      Replays network model pool steps pool' ∧ steps.length = count := by
  induction count generalizing pool with
  | zero => exact ⟨[], pool, rfl, .nil, rfl⟩
  | succ count ih =>
    obtain ⟨step, cost, best, left, right, ne, weigh⟩ :=
      exists_cheapestStep network model valid (by omega)
    have one := length_live_contracted valid left right ne step.result
    obtain ⟨steps, pool', hsteps, replays, length⟩ :=
      ih (valid.contracted step.left step.right step.result) (by omega)
    refine ⟨step :: steps, pool', ?_, .cons left right ne weigh replays, by simp [length]⟩
    rw [cheapestSteps, best]
    simp only [bind, Except.bind, valid.contract_eq left right, hsteps]
    rfl

variable {network : Network}

theorem leftToRight_replays (model : CostModel) (terms : network.terms ≠ []) :
    ∃ path pool, network.leftToRight model = .ok path ∧
      Replays network model (.ofTerms network.terms) path.steps pool ∧
      path.steps.length = network.terms.length - 1 := by
  have pos := List.length_pos_of_ne_nil terms
  have distinct : (0 :: List.range' 1 (network.terms.length - 1)).Nodup := by
    simp [List.nodup_range']
  obtain ⟨steps, pool, hfold, replays, length⟩ := foldInto_replays network model
    (Pool.ofTerms_valid network.terms) (by simp [Pool.ofTerms, pos])
    (fun id hm => by
      have := List.mem_range'_1.1 hm
      exact List.mem_range.2 (by omega)) distinct
  exact ⟨⟨steps⟩, pool, by rw [leftToRight, hfold]; rfl, replays, by simp [length]⟩

theorem cheapestFirst_replays (model : CostModel) (terms : network.terms ≠ []) :
    ∃ path pool, network.cheapestFirst model = .ok path ∧
      Replays network model (.ofTerms network.terms) path.steps pool ∧
      path.steps.length = network.terms.length - 1 := by
  have pos := List.length_pos_of_ne_nil terms
  have enough : network.terms.length - 1 < (Pool.ofTerms network.terms).live.length := by
    rw [Pool.ofTerms, List.length_range]
    omega
  obtain ⟨steps, pool, hsteps, replays, length⟩ := cheapestSteps_replays network model
    (Pool.ofTerms_valid network.terms) enough
  exact ⟨⟨steps⟩, pool, by rw [cheapestFirst, hsteps]; rfl, replays, length⟩

end Network

end Einsum
