import Einsum.Proofs.Subsets

/-! Paths that contract a network to one tensor.
Such a path has one step less than there are terms, names every tensor but the last one
once, and names it after it was made. Followed again from the terms, its pairs are live and
give the steps of the path. Each of the three searches finds such a path. -/

namespace Einsum

/-- The tensors that the steps contract, step by step. -/
def Path.names (path : Path) : List Nat := path.steps.flatMap fun step => [step.left, step.right]

namespace Network

variable {network : Network} {model : CostModel} {pool pool' : Pool} {steps : List Contraction}

/-- Contracts the listed pairs one after the other, live tensors only. Gives the steps that
this takes and the pool that it leaves. -/
def replay (network : Network) (model : CostModel) :
    Pool → List (Nat × Nat) → Except Error (List Contraction × Pool)
  | pool, [] => .ok ([], pool)
  | pool, (a, b) :: pairs => do
    if a ∉ pool.live then throw (.fault (.missingTensor a))
    if b ∉ pool.live then throw (.fault (.missingTensor b))
    let pairing ← pool.pairing a b network.output
    let cost := model.pairwise network.sizes (← pool.labels a) (← pool.labels b) pairing
    let (_, pool) ← pool.contract a b pairing.result
    let (steps, pool) ← network.replay model pool pairs
    return (⟨a, b, pairing, cost.flops⟩ :: steps, pool)

/-- The path contracts all terms of the network to one tensor. -/
structure Completes (network : Network) (model : CostModel) (path : Path) : Prop where
  length : path.steps.length = network.terms.length - 1
  /-- Step `k` contracts two different tensors made before it. -/
  before : ∀ k step, path.steps[k]? = some step → step.left ≠ step.right ∧
    step.left < network.terms.length + k ∧ step.right < network.terms.length + k
  /-- The tensors `0` to `2 * n - 3` are named once each. -/
  once : path.names.Perm (List.range (2 * network.terms.length - 2))
  replays : ∃ pool,
    network.replay model (.ofTerms network.terms) path.pairs = .ok (path.steps, pool) ∧
    pool.live = [2 * network.terms.length - 2]

namespace Replays

theorem replay_eq (replays : Replays network model pool steps pool') (valid : pool.Valid) :
    network.replay model pool (steps.map fun step => (step.left, step.right)) =
      .ok (steps, pool') := by
  induction replays with
  | nil => rfl
  | @cons pool _ step cost steps left right ne weigh _ ih =>
    obtain ⟨keep, hp, -⟩ := valid.exists_pairing left right network.output
    rw [weigh_eq network model valid left right hp, Except.ok.injEq, Prod.mk.injEq] at weigh
    obtain ⟨hstep, -⟩ := weigh
    have labels : Pairing.split (pool.labelsOf step.left) (pool.labelsOf step.right) keep =
      step.labels := congrArg Contraction.labels hstep
    rw [List.map_cons, replay, if_neg (not_not.2 left), if_neg (not_not.2 right), hp,
      valid.labels_eq left, valid.labels_eq right]
    simp only [bind, Except.bind, pure, Except.pure, valid.contract_eq left right]
    rw [labels] at hstep ⊢
    rw [← Contraction.result, ih (valid.contracted _ _ _)]
    simp only [hstep]

theorem before (replays : Replays network model pool steps pool') (valid : pool.Valid) {k : Nat}
    {step : Contraction} (h : steps[k]? = some step) : step.left ≠ step.right ∧
      step.left < pool.made.length + k ∧ step.right < pool.made.length + k := by
  induction replays generalizing k with
  | nil => cases h
  | @cons pool _ first _ steps left right ne _ _ ih =>
    cases k with
    | zero =>
      obtain rfl : first = step := by simpa using h
      exact ⟨ne, valid.lt_length left, valid.lt_length right⟩
    | succ k =>
      have later := ih (valid.contracted _ _ _) (by simpa using h)
      rw [Pool.length_made_contracted] at later
      omega

/-- What the steps name and what they leave is what there was and what they made. -/
theorem names_perm (replays : Replays network model pool steps pool') (valid : pool.Valid) :
    ((steps.flatMap fun step => [step.left, step.right]) ++ pool'.live).Perm
      (pool.live ++ List.range' pool.made.length steps.length) := by
  induction replays with
  | nil => simp
  | @cons pool pool' step _ steps left right ne _ _ ih =>
    have rest := ih (valid.contracted step.left step.right step.result)
    rw [Pool.length_made_contracted] at rest
    have live := valid.live_perm left right ne
    let others := pool.live.filter fun other => other != step.left && other != step.right
    have after : (pool.contracted step.left step.right step.result).live =
      others ++ [pool.made.length] := rfl
    rw [List.flatMap_cons, List.length_cons, List.range'_succ, List.append_assoc]
    calc ([step.left, step.right] ++ ((steps.flatMap fun step => [step.left, step.right]) ++
            pool'.live)).Perm
          ([step.left, step.right] ++ (others ++ [pool.made.length] ++
            List.range' (pool.made.length + 1) steps.length)) := (after ▸ rest).append_left _
      _ |>.Perm (step.left :: step.right :: others ++
            pool.made.length :: List.range' (pool.made.length + 1) steps.length) :=
          .of_eq (by simp)
      _ |>.Perm (pool.live ++
            pool.made.length :: List.range' (pool.made.length + 1) steps.length) :=
          live.symm.append_right _

theorem completes {path : Path}
    (replays : Replays network model (.ofTerms network.terms) path.steps pool)
    (several : 2 ≤ network.terms.length) (length : path.steps.length = network.terms.length - 1) :
    network.Completes model path := by
  have valid := Pool.ofTerms_valid network.terms
  have made : (Pool.ofTerms network.terms).made.length = network.terms.length := List.length_map _
  have all : (Pool.ofTerms network.terms).live = List.range network.terms.length := rfl
  -- one tensor is left, the newest one
  have last : pool.live = [2 * network.terms.length - 2] := by
    have one := replays.length_live valid
    rw [all, List.length_range, length] at one
    obtain ⟨id, live⟩ := List.length_eq_one_iff.1 (by omega : pool.live.length = 1)
    have newest := replays.newest_live (by rw [made, all, List.mem_range]; omega)
    rw [live, List.mem_singleton, replays.length_made, made, length] at newest
    rw [live, ← newest]
    congr 1
    omega
  refine ⟨length, fun k step h => ?_, ?_, pool, replays.replay_eq valid, last⟩
  · simpa [made] using replays.before valid h
  · have names := replays.names_perm valid
    rw [last, all, made, length] at names
    have numbers : List.range network.terms.length ++
        List.range' network.terms.length (network.terms.length - 1) =
        List.range (2 * network.terms.length - 2) ++ [2 * network.terms.length - 2] := by
      have joined := @List.range'_append_1 0 network.terms.length (network.terms.length - 1)
      rw [Nat.zero_add] at joined
      rw [List.range_eq_range', joined, ← List.range_eq_range', ← List.range_succ]
      congr 1
      omega
    exact (List.perm_append_right_iff _).1 (names.trans (.of_eq numbers))

end Replays

/-- The fixed order, the order of cheapest pairs and the search over all sets each find a path
that contracts the terms to one tensor. Such a path names all other tensors once, and its
pairs, followed again from the terms, are live and give its steps. -/
theorem searches_complete (network : Network) (model : CostModel)
    (several : 2 ≤ network.terms.length) :
    ∀ search ∈ [leftToRight, cheapestFirst, best], ∃ path, search network model = .ok path ∧
      network.Completes model path := by
  have terms : network.terms ≠ [] := List.ne_nil_of_length_pos (by omega)
  have complete {result : Except Error Path} (found : ∃ path pool, result = .ok path ∧
      Replays network model (.ofTerms network.terms) path.steps pool ∧
      path.steps.length = network.terms.length - 1) :
      ∃ path, result = .ok path ∧ network.Completes model path := by
    obtain ⟨path, pool, h, replays, length⟩ := found
    exact ⟨path, h, replays.completes several length⟩
  simp only [List.forall_mem_cons, List.not_mem_nil, false_imp_iff, implies_true, and_true]
  exact ⟨complete (leftToRight_replays model terms), complete (cheapestFirst_replays model terms),
    complete (best_replays model terms)⟩

/-- Three terms with a repeated label, a private one and labels without a size. -/
theorem searches_complete_private :
    let network : Network :=
      ⟨[['a', 'a', 'b'], ['b', 'c'], ['d']], ⟨[('a', 2), ('b', 3)]⟩, ['c']⟩
    2 ≤ network.terms.length ∧ ∃ path, network.best .cpu = .ok path ∧
      path.names.Perm [0, 1, 2, 3] ∧ ∃ pool,
        network.replay .cpu (.ofTerms network.terms) path.pairs = .ok (path.steps, pool) ∧
        pool.live = [4] := by
  intro network
  have several : 2 ≤ network.terms.length := by decide
  obtain ⟨path, hpath, -, -, once, replays⟩ :=
    searches_complete network .cpu several best (by simp)
  exact ⟨several, path, hpath, once, replays⟩

end Network

end Einsum
