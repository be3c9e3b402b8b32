import Einsum.Proofs.Renaming
import Einsum.Strategy

/-! Paths of networks whose labels are renamed.
A pairing keeps the orders of its two sides and asks only whether a label is needed, so a
renamed network is contracted in the same pairs at the same costs, and each tensor carries
the new names of its labels. The table of sets lists labels by ascending name; its costs and
trees do not change, as only volumes of such lists count. -/

namespace Einsum

def Pairing.rename (r : Label → Label) (pairing : Pairing) : Pairing :=
  ⟨pairing.batch.map r, pairing.summed.map r, pairing.leftOnly.map r, pairing.rightOnly.map r⟩

def Pool.rename (r : Label → Label) (pool : Pool) : Pool :=
  ⟨pool.made.map (Option.map (·.map r)), pool.live⟩

def Contraction.rename (r : Label → Label) (step : Contraction) : Contraction :=
  { step with labels := step.labels.rename r }

def Path.rename (r : Label → Label) (path : Path) : Path := ⟨path.steps.map (·.rename r)⟩

def Network.rename (r : Label → Label) (network : Network) : Network :=
  ⟨network.terms.map (·.map r), network.sizes.rename r, network.output.map r⟩

/-- An entry of the table with new names, which ascend again. -/
def SubsetBest.rename (r : Label → Label) (best : SubsetBest) : SubsetBest :=
  { best with labels := best.labels.renameAscending r }

section Except

variable {β β' γ γ' : Type}

/-- Two computations that agree up to translations, one step after the other. -/
theorem bind_eq_map_bind {x : Except Error β} {x' : Except Error β'} {f : β → β'}
    {k : β → Except Error γ} {k' : β' → Except Error γ'} {g : γ → γ'} (first : x' = f <$> x)
    (rest : ∀ b, k' (f b) = g <$> k b) : x' >>= k' = g <$> (x >>= k) := by
  rw [first, bind_map_left, map_bind]
  exact bind_congr rest

theorem mapM_eq_map_mapM {α : Type} {f : β → β'} {k : α → Except Error β}
    {k' : α → Except Error β'} (same : ∀ a, k' a = f <$> k a) (as : List α) : as.mapM k' = List.map f <$> as.mapM k := by
  induction as with
  | nil => rfl
  | cons a as ih =>
    rw [List.mapM_cons, List.mapM_cons]
    refine bind_eq_map_bind (same a) fun b => ?_
    exact bind_eq_map_bind ih fun bs => rfl

end Except

theorem minOn?_map {β γ : Type} {f : β → γ} {weight : β → Nat} {weight' : γ → Nat}
    (same : ∀ b, weight' (f b) = weight b) (bs : List β) :
    (bs.map f).minOn? weight' = (bs.minOn? weight).map f := by
  induction bs with
  | nil => rfl
  | cons b bs ih =>
    rw [List.map_cons, List.minOn?_cons, List.minOn?_cons, ih]
    cases bs.minOn? weight with
    | none => rfl
    | some best =>
      simp only [Option.map_some, Option.elim_some, minOn, same]
      split <;> rfl

theorem Pairing.result_rename (r : Label → Label) (pairing : Pairing) :
    (pairing.rename r).result = pairing.result.map r := by
  simp [rename, result]

theorem Pool.labels_rename (r : Label → Label) (pool : Pool) (id : Nat) :
    (pool.rename r).labels id = List.map r <$> pool.labels id := by
  have found : (pool.rename r).made[id]? = pool.made[id]?.map (Option.map (·.map r)) :=
    List.getElem?_map
  rw [labels, labels, found]
  rcases pool.made[id]? with _ | _ | _ <;> rfl

theorem Pool.ofTerms_rename (r : Label → Label) (terms : List Labels) :
    Pool.ofTerms (terms.map (·.map r)) = (Pool.ofTerms terms).rename r := by
  rw [ofTerms, ofTerms, rename, List.length_map, List.map_map, List.map_map]
  rfl

theorem Pool.contract_rename (r : Label → Label) (pool : Pool) (a b : Nat) (step : Contraction) :
    (pool.rename r).contract a b (step.rename r).result =
      Prod.map id (rename r) <$> pool.contract a b step.result := by
  have length : (pool.rename r).made.length = pool.made.length := List.length_map _
  have result : (step.rename r).result = step.result.map r := step.labels.result_rename r
  rw [contract, contract, length, result]
  split
  · rfl
  · split
    · rfl
    · simp [rename]

variable {r : Label → Label} (inj : Function.Injective r)

include inj

theorem Labels.contains_renameAscending (labels : Labels) (c : Label) :
    (labels.renameAscending r).contains (r c) = labels.contains c := by
  rw [← contains_map inj labels, Bool.eq_iff_iff, List.contains_iff_mem, List.contains_iff_mem]
  exact (renameAscending_perm r labels).mem_iff

theorem Pairing.split_rename {keep keep' : Label → Bool} (same : ∀ c, keep' (r c) = keep c)
    (left right : Labels) :
    split (left.map r) (right.map r) keep' = (split left right keep).rename r := by
  have shared (c : Label) : (right.map r).contains (r c) = right.contains c :=
    Labels.contains_map inj right c
  have shared' (c : Label) : (left.map r).contains (r c) = left.contains c :=
    Labels.contains_map inj left c
  rw [split, split, rename]
  congr 1 <;> exact Labels.filter_map_of_eq (fun c => by simp only [shared, shared', same]) _

theorem CostModel.pairwise_rename (model : CostModel) (sizes : SizeTable) (left right : Labels)
    (pairing : Pairing) :
    model.pairwise (sizes.rename r) (left.map r) (right.map r) (pairing.rename r) =
      model.pairwise sizes left right pairing := by
  have summed : (pairing.rename r).summed = pairing.summed.map r := rfl
  simp only [pairwise, Pairing.result_rename, summed, SizeTable.volume_rename inj]

namespace Pool

theorem neededElsewhere_rename (pool : Pool) (a b : Nat) (output : Labels) :
    (pool.rename r).neededElsewhere a b (output.map r) =
      Labels.renameAscending r <$> pool.neededElsewhere a b output := by
  refine bind_eq_map_bind (mapM_eq_map_mapM (pool.labels_rename r) _) fun others => ?_
  -- needed labels ascend, under their new names as under the old ones
  rw [map_pure, ← Labels.ascending_map inj, List.map_append, List.map_flatten]

theorem pairing_rename (pool : Pool) (a b : Nat) (output : Labels) :
    (pool.rename r).pairing a b (output.map r) = Pairing.rename r <$> pool.pairing a b output := by
  refine bind_eq_map_bind (neededElsewhere_rename inj pool a b output) fun kept => ?_
  refine bind_eq_map_bind (pool.labels_rename r a) fun left => ?_
  refine bind_eq_map_bind (pool.labels_rename r b) fun right => ?_
  rw [map_pure, Pairing.split_rename inj (Labels.contains_renameAscending inj kept)]

end Pool

namespace Network

theorem weigh_rename (network : Network) (model : CostModel) (pool : Pool) (a b : Nat) :
    (network.rename r).weigh model (pool.rename r) a b =
      Prod.map (Contraction.rename r) id <$> network.weigh model pool a b := by
  refine bind_eq_map_bind (Pool.pairing_rename inj pool a b network.output) fun pairing => ?_
  refine bind_eq_map_bind (pool.labels_rename r a) fun left => ?_
  refine bind_eq_map_bind (pool.labels_rename r b) fun right => ?_
  have cost := CostModel.pairwise_rename inj model network.sizes left right pairing
  simp only [rename, cost, map_pure]
  rfl

theorem foldInto_rename (network : Network) (model : CostModel) (pool : Pool) (acc : Nat)
    (ids : List Nat) :
    (network.rename r).foldInto model (pool.rename r) acc ids =
      List.map (·.rename r) <$> network.foldInto model pool acc ids := by
  induction ids generalizing pool acc with
  | nil => rfl
  | cons next ids ih =>
    rw [foldInto, foldInto]
    refine bind_eq_map_bind (weigh_rename inj network model pool acc next) ?_
    rintro ⟨step, -⟩
    refine bind_eq_map_bind (pool.contract_rename r acc next step) ?_
    rintro ⟨made, pool⟩
    exact bind_eq_map_bind (ih pool made) fun steps => rfl

theorem leftToRight_rename (network : Network) (model : CostModel) :
    (network.rename r).leftToRight model = Path.rename r <$> network.leftToRight model := by
  have terms : (network.rename r).terms = network.terms.map (·.map r) := rfl
  rw [leftToRight, leftToRight, terms, List.length_map, Pool.ofTerms_rename]
  exact bind_eq_map_bind (foldInto_rename inj network model _ 0 _) fun steps => rfl

theorem cheapestStep_rename (network : Network) (model : CostModel) (pool : Pool) :
    (network.rename r).cheapestStep model (pool.rename r) =
      Option.map (·.rename r) <$> network.cheapestStep model pool := by
  have pairs := mapM_eq_map_mapM
    (fun pair : Nat × Nat => weigh_rename inj network model pool pair.1 pair.2) (pairsOf pool.live)
  simp only [cheapestStep]
  refine bind_eq_map_bind pairs fun weighed => ?_
  rw [map_pure, minOn?_map (fun _ => rfl), Option.map_map, Option.map_map]
  rfl

theorem cheapestSteps_rename (network : Network) (model : CostModel) (count : Nat) (pool : Pool) :
    (network.rename r).cheapestSteps model count (pool.rename r) =
      List.map (·.rename r) <$> network.cheapestSteps model count pool := by
  induction count generalizing pool with
  | zero => rfl
  | succ count ih =>
    refine bind_eq_map_bind (cheapestStep_rename inj network model pool) fun found => ?_
    cases found with
    | none => rfl
    | some step =>
      refine bind_eq_map_bind (pool.contract_rename r step.left step.right step) ?_
      rintro ⟨-, pool⟩
      exact bind_eq_map_bind (ih pool) fun steps => rfl

theorem cheapestFirst_rename (network : Network) (model : CostModel) :
    (network.rename r).cheapestFirst model = Path.rename r <$> network.cheapestFirst model := by
  have terms : (network.rename r).terms = network.terms.map (·.map r) := rfl
  rw [cheapestFirst, cheapestFirst, terms, List.length_map, Pool.ofTerms_rename]
  exact bind_eq_map_bind (cheapestSteps_rename inj network model _ _) fun steps => rfl

theorem setLabels_rename (network : Network) (set : Nat) :
    (network.rename r).setLabels set = (network.setLabels set).renameAscending r := by
  have part (p : Nat → Bool) :
      ((network.rename r).terms.zipIdx.filter fun entry => p entry.2).flatMap (·.1) =
        ((network.terms.zipIdx.filter fun entry => p entry.2).flatMap (·.1)).map r := by
    rw [rename, List.zipIdx_map, List.filter_map, List.flatMap_map, List.map_flatMap]
    rfl
  have inside := part set.testBit
  have outside := part fun id => !set.testBit id
  have output : (network.rename r).output = network.output.map r := rfl
  simp only [setLabels, List.partition_eq_filter_filter, Function.comp_def, inside, outside, output,
    ← List.map_append]
  rw [Labels.filter_map_of_eq (Labels.contains_map inj _), Labels.ascending_map inj]

theorem joinBest_rename (network : Network) (model : CostModel) (labels : Labels)
    (left right : SubsetBest) :
    (network.rename r).joinBest model (labels.renameAscending r) (left.rename r) (right.rename r) =
      (network.joinBest model labels left right).rename r := by
  have union : (network.rename r).sizes.volume
        (Labels.ascending ((left.rename r).labels ++ (right.rename r).labels)) =
      network.sizes.volume (Labels.ascending (left.labels ++ right.labels)) := by
    rw [← SizeTable.volume_renameAscending inj network.sizes, ← Labels.ascending_map inj]
    refine SizeTable.volume_congr (Labels.nodup_ascending _) (Labels.nodup_ascending _) fun c => ?_
    have mem (labels : Labels) := (Labels.renameAscending_perm r labels).mem_iff (a := c)
    simp only [Labels.mem_ascending, List.map_append, List.mem_append, SubsetBest.rename, mem]
  have volume (labels : Labels) : (network.rename r).sizes.volume (labels.renameAscending r) =
      network.sizes.volume labels := SizeTable.volume_renameAscending inj network.sizes labels
  simp only [joinBest, union]
  simp only [SubsetBest.rename, volume]

theorem bestOf_rename (network : Network) (model : CostModel) (table : Array (Option SubsetBest))
    (set : Nat) :
    (network.rename r).bestOf model (table.map (Option.map (·.rename r))) set =
      (network.bestOf model table set).map (·.rename r) := by
  have found : ((network.rename r).terms.zipIdx.find? fun entry => 1 <<< entry.2 = set) =
      (network.terms.zipIdx.find? fun entry => 1 <<< entry.2 = set).map (Prod.map (·.map r) id) := by
    rw [rename, List.zipIdx_map, List.find?_map]
    rfl
  have entry (set : Nat) : (table.map (Option.map (·.rename r)))[set]?.join =
      table[set]?.join.map (·.rename r) := by
    rw [Array.getElem?_map]
    rcases table[set]? with _ | _ | _ <;> rfl
  have first (bests : List SubsetBest) :
      (bests.map (·.rename r)).minOn? (fun best => best.cost.rank) =
        (bests.minOn? fun best => best.cost.rank).map (·.rename r) := minOn?_map (fun _ => rfl) bests
  simp only [bestOf, found, setLabels_rename inj, entry]
  -- a set of one term has an entry of its own, any other set the cheapest join of its halves
  generalize List.find? _ network.terms.zipIdx = single
  rcases single with _ | ⟨term, i⟩
  · simp only [Option.map_none]
    rw [← first, List.map_filterMap]
    congr 2
    funext halves
    rcases table[halves.1]?.join with _ | left
    · rfl
    · rcases table[halves.2]?.join with _ | right
      · rfl
      · exact congrArg some (joinBest_rename inj network model (network.setLabels set) left right)
  · simp only [Option.map_some, Prod.map_apply, Labels.ascending_map inj, SubsetBest.rename, id]

theorem bestTable_rename (network : Network) (model : CostModel) (count : Nat) :
    (network.rename r).bestTable model count =
      (network.bestTable model count).map (Option.map (·.rename r)) := by
  induction count with
  | zero => exact Array.map_empty.symm
  | succ count ih => rw [bestTable, bestTable, ih, bestOf_rename inj, Array.map_push]

theorem bestTree?_rename (network : Network) (model : CostModel) :
    (network.rename r).bestTree? model = network.bestTree? model := by
  have terms : (network.rename r).terms.length = network.terms.length := List.length_map _
  rw [bestTree?, bestTree?, terms, bestTable_rename inj, Array.getElem?_map]
  rcases (network.bestTable model (1 <<< network.terms.length))[_]? with _ | _ | _ <;> rfl

theorem contractTree_rename (network : Network) (model : CostModel) (pool : Pool) (tree : Tree) :
    (network.rename r).contractTree model (pool.rename r) tree =
      Prod.map id (Prod.map (Pool.rename r) (List.map (·.rename r))) <$>
        network.contractTree model pool tree := by
  induction tree generalizing pool with
  | term id => rfl
  | join left right ihl ihr =>
    rw [contractTree, contractTree]
    refine bind_eq_map_bind (ihl pool) ?_
    rintro ⟨a, pool, leftSteps⟩
    refine bind_eq_map_bind (ihr pool) ?_
    rintro ⟨b, pool, rightSteps⟩
    refine bind_eq_map_bind (weigh_rename inj network model pool a b) ?_
    rintro ⟨step, -⟩
    refine bind_eq_map_bind (pool.contract_rename r a b step) ?_
    rintro ⟨made, pool⟩
    simp

theorem best_rename (network : Network) (model : CostModel) :
    (network.rename r).best model = Path.rename r <$> network.best model := by
  have terms : (network.rename r).terms = network.terms.map (·.map r) := rfl
  rw [best, best, bestTree?_rename inj, terms, List.length_map, Pool.ofTerms_rename]
  split
  · exact cheapestFirst_rename inj network model
  · cases network.bestTree? model with
    | none => rfl
    | some tree =>
      exact bind_eq_map_bind (contractTree_rename inj network model _ tree) fun _ => rfl

theorem path_rename (network : Network) (model : CostModel) (strategy : Strategy) :
    (network.rename r).path model strategy = Path.rename r <$> network.path model strategy := by
  have terms : (network.rename r).terms = network.terms.map (·.map r) := rfl
  rw [path, path, terms, List.length_map]
  cases strategy.forTerms network.terms.length with
  | leftToRight => exact leftToRight_rename inj network model
  | greedy => exact cheapestFirst_rename inj network model
  | optimal => exact best_rename inj network model
  | auto => exact cheapestFirst_rename inj network model

end Network

end Einsum
