import Einsum.Proofs.Phases
import Einsum.Proofs.RenamedPaths

/-! Plans do not depend on the names of the labels.
Every part of a plan either copies labels or looks for places of equal ones, and both go
along with new names that keep different labels apart. So the plan of a renamed equation has
the same actions on the same tensors, with the same axes and the same estimates. -/

namespace Einsum

def Action.rename (r : Label → Label) : Action → Action
  | .diagonalize input groups => .diagonalize input (groups.map (·.rename r))
  | .reduceSum input axes summed => .reduceSum input axes (summed.map r)
  | .contract left right labels axes flops => .contract left right (labels.rename r) axes flops
  | .permute input axes => .permute input axes

def Step.rename (r : Label → Label) (step : Step) : Step :=
  ⟨step.action.rename r, step.output.map r, step.result⟩

/-- A plan with new names for its labels and the same numbers everywhere. -/
def Plan.rename (r : Label → Label) (plan : Plan) : Plan :=
  { plan with
    steps := plan.steps.map (·.rename r)
    inputs := plan.inputs.map (·.map r)
    output := plan.output.map r }

def Source.rename (r : Label → Label) (source : Source) : Source :=
  ⟨source.id, source.labels.map r⟩

theorem ContractionAxes.ofPairing_rename {r : Label → Label} (inj : Function.Injective r)
    (left right : Labels) (pairing : Pairing) :
    ofPairing (left.map r) (right.map r) (pairing.rename r) = ofPairing left right pairing := by
  simp only [ofPairing, Pairing.rename, List.filterMap_map, Function.comp_def,
    Labels.idxOf?_map inj]

namespace Source

variable {r : Label → Label}

theorem replaceEach_rename {replace replace' : Source → Option (Action × Labels)}
    (same : ∀ source, replace' (source.rename r) =
      (replace source).map (Prod.map (Action.rename r) (List.map r)))
    (next : Nat) (sources : List Source) :
    replaceEach replace' next (sources.map (·.rename r)) =
      Prod.map (List.map (·.rename r)) (List.map (·.rename r)) (replaceEach replace next sources) := by
  induction sources generalizing next with
  | nil => rfl
  | cons source sources ih =>
    rw [List.map_cons, replaceEach, replaceEach, same]
    cases replace source with
    | none => simp only [Option.map_none, ih, Prod.map, List.map_cons]
    | some new =>
      simp only [Option.map_some, ih, Prod.map, List.map_cons]
      rfl

variable (inj : Function.Injective r)

include inj

theorem collapse_rename (source : Source) : (source.rename r).collapse =
    source.collapse.map (Prod.map (Action.rename r) (List.map r)) := by
  have labels : (source.rename r).labels = source.labels.map r := rfl
  rw [collapse, collapse, labels, Labels.diagonals_map inj, Labels.distinct_map inj]
  cases source.labels.diagonals <;> rfl

theorem sumOut_rename (source : Source) (summed : Labels) :
    (source.rename r).sumOut (summed.map r) =
      (source.sumOut summed).map (Prod.map (Action.rename r) (List.map r)) := by
  have labels : (source.rename r).labels = source.labels.map r := rfl
  have kept : (source.labels.map r).filter (fun c => !(summed.map r).contains c) =
      (source.labels.filter fun c => !summed.contains c).map r :=
    Labels.filter_map_of_eq (fun c => by rw [Labels.contains_map inj]) _
  simp only [sumOut, labels, List.isEmpty_map, kept, List.zipIdx_map, List.filterMap_map,
    Function.comp_def, Prod.map, Labels.contains_map inj]
  split <;> rfl

theorem sumPrivate_rename (sources : List Source) (output : Labels) (source : Source) :
    (source.rename r).sumOut
        (privateLabels (sources.map (·.rename r)) (output.map r) (source.rename r)) =
      (source.sumOut (privateLabels sources output source)).map
        (Prod.map (Action.rename r) (List.map r)) := by
  rw [← sumOut_rename inj]
  congr 1
  refine Labels.filter_map_of_eq (fun c => ?_) source.labels
  have having : (fun source : Source => source.labels.contains (r c)) ∘ (·.rename r) =
      fun source : Source => source.labels.contains c :=
    funext fun source => Labels.contains_map inj source.labels c
  rw [Labels.contains_map inj, List.countP_map, having]

theorem sumDangling_rename (output : Labels) (source : Source) :
    (source.rename r).sumOut ((source.rename r).labels.filter fun c => !(output.map r).contains c) =
      (source.sumOut (source.labels.filter fun c => !output.contains c)).map
        (Prod.map (Action.rename r) (List.map r)) := by
  rw [← sumOut_rename inj]
  congr 1
  exact Labels.filter_map_of_eq (fun c => by rw [Labels.contains_map inj]) source.labels

theorem arrange_rename (operands : Nat) (output : Labels) (source : Source) :
    arrange operands (output.map r) (source.rename r) =
      (arrange operands output source).map (Prod.map (Action.rename r) (List.map r)) := by
  have axes : ((output.map r).filterMap fun c => (source.rename r).labels.idxOf? c) =
      output.filterMap fun c => source.labels.idxOf? c := by
    rw [List.filterMap_map]
    congr 1
    funext c
    exact Labels.idxOf?_map inj source.labels c
  have id : (source.rename r).id = source.id := rfl
  rw [arrange, arrange, axes, id]
  split <;> rfl

theorem follow_rename (next : Nat) (sources : List Source) (path : List Contraction) :
    follow next (sources.map (·.rename r)) (path.map (·.rename r)) =
      Prod.map (List.map (·.rename r)) (List.map (·.rename r)) <$> follow next sources path := by
  induction path generalizing next sources with
  | nil => rfl
  | cons pair path ih =>
    have place (id : Nat) : (sources.map (·.rename r))[id]? = sources[id]?.map (·.rename r) :=
      List.getElem?_map
    have left : (pair.rename r).left = pair.left := rfl
    have right : (pair.rename r).right = pair.right := rfl
    have result : (pair.rename r).result = pair.result.map r := pair.labels.result_rename r
    rw [List.map_cons, follow, follow, left, right, place, place]
    -- a path that names a tensor which is not there fails in both runs
    cases sources[pair.left]? with
    | none => rfl
    | some a =>
      cases sources[pair.right]? with
      | none => rfl
      | some b =>
        have axes := ContractionAxes.ofPairing_rename inj a.labels b.labels pair.labels
        have made : (⟨next, (pair.rename r).result⟩ : Source) = rename r ⟨next, pair.result⟩ := by
          rw [result]
          rfl
        have more : sources.map (·.rename r) ++ [rename r ⟨next, pair.result⟩] =
            (sources ++ [(⟨next, pair.result⟩ : Source)]).map (·.rename r) := by
          rw [List.map_append, List.map_singleton]
        simp only [Option.map_some, made, more]
        refine bind_eq_map_bind (ih (next + 1) _) ?_
        rintro ⟨steps, sources⟩
        simp only [map_pure, Prod.map_apply, List.map_cons, Step.rename, Action.rename, ← axes,
          ← result]
        rfl

end Source

namespace SizedEquation

variable {r : Label → Label} (inj : Function.Injective r)

theorem prepare_eq (sized : SizedEquation) :
    let collapsed := Source.replaceEach Source.collapse sized.equation.inputs.length sized.operands
    let summed := Source.replaceEach
      (fun source => source.sumOut (source.privateLabels collapsed.2 sized.output))
      (sized.equation.inputs.length + collapsed.1.length) collapsed.2
    sized.prepare = (collapsed.1 ++ summed.1, summed.2) := rfl

theorem network_rename (r : Label → Label) (sized : SizedEquation) (sources : List Source) :
    (sized.rename r).network (sources.map (·.rename r)) = (sized.network sources).rename r := by
  rw [network, network, Network.rename, List.map_map, List.map_map]
  rfl

theorem operands_rename (r : Label → Label) (sized : SizedEquation) :
    (sized.rename r).operands = sized.operands.map (·.rename r) := by
  have inputs : (sized.rename r).equation.inputs = sized.equation.inputs.map (·.map r) := rfl
  refine List.ext_getElem? fun id => ?_
  rw [List.getElem?_map, getElem?_operands, getElem?_operands, inputs, List.getElem?_map,
    Option.map_map, Option.map_map]
  rfl

include inj

theorem prepare_rename (sized : SizedEquation) : (sized.rename r).prepare =
    Prod.map (List.map (·.rename r)) (List.map (·.rename r)) sized.prepare := by
  have length : (sized.rename r).equation.inputs.length = sized.equation.inputs.length :=
    List.length_map _
  have output : (sized.rename r).output = sized.output.map r := rfl
  have diagonals := Source.replaceEach_rename (Source.collapse_rename inj)
  have sums (sources others : List Source) (next : Nat) :
      Source.replaceEach (fun source => source.sumOut
        (source.privateLabels (sources.map (·.rename r)) (sized.output.map r))) next
        (others.map (·.rename r)) =
      Prod.map (List.map (·.rename r)) (List.map (·.rename r)) (Source.replaceEach
        (fun source => source.sumOut (source.privateLabels sources sized.output)) next others) :=
    Source.replaceEach_rename (Source.sumPrivate_rename inj sources sized.output) next others
  simp only [prepare_eq, length, operands_rename, output, diagonals, sums, Prod.map_fst, Prod.map_snd,
    List.length_map, Prod.map_apply, List.map_append]

theorem finish_rename (sized : SizedEquation) (next : Nat) (last : Option Source) :
    (sized.rename r).finish next (last.map (·.rename r)) =
      (sized.finish next last).map (·.rename r) := by
  have length : (sized.rename r).equation.inputs.length = sized.equation.inputs.length :=
    List.length_map _
  have output : (sized.rename r).output = sized.output.map r := rfl
  have value : (last.map (·.rename r)).toList = last.toList.map (·.rename r) := by
    cases last <;> rfl
  have sums (sources : List Source) :
      Source.replaceEach (fun source => source.sumOut
        (source.labels.filter fun c => !(sized.output.map r).contains c)) next
        (sources.map (·.rename r)) =
      Prod.map (List.map (·.rename r)) (List.map (·.rename r)) (Source.replaceEach (fun source =>
        source.sumOut (source.labels.filter fun c => !sized.output.contains c)) next sources) :=
    Source.replaceEach_rename (Source.sumDangling_rename inj sized.output) next sources
  have orders := Source.replaceEach_rename
    (Source.arrange_rename inj sized.equation.inputs.length sized.output)
  simp only [finish, length, output, value, sums, orders, Prod.map_fst, Prod.map_snd,
    List.length_map, List.map_append]

theorem plan_rename (sized : SizedEquation) (strategy : Strategy) (model : CostModel) :
    (sized.rename r).plan strategy model = Plan.rename r <$> sized.plan strategy model := by
  have length : (sized.rename r).equation.inputs.length = sized.equation.inputs.length :=
    List.length_map _
  rw [plan, plan, prepare_rename inj, length]
  obtain ⟨first, sources⟩ := sized.prepare
  simp only [Prod.map_apply, List.length_map, network_rename]
  refine bind_eq_map_bind (Network.path_rename inj _ model strategy) fun path => ?_
  refine bind_eq_map_bind (Source.follow_rename inj _ sources path.steps) ?_
  rintro ⟨contractions, sources⟩
  have flops : (path.rename r).flops = path.flops := by
    rw [Path.flops, Path.flops, Path.rename, List.map_map]
    rfl
  simp only [Prod.map_apply, List.getLast?_map, List.length_map, finish_rename inj,
    outputShape_rename inj, flops, map_pure, Plan.rename, List.map_append]
  rfl

omit inj in
/-- There is a plan even when there is no operand, with no step then. -/
theorem exists_plan (sized : SizedEquation) (nodup : sized.output.Nodup)
    (subset : ∀ c ∈ sized.output, c ∈ sized.equation.labels) (strategy : Strategy)
    (model : CostModel) : ∃ plan, sized.plan strategy model = .ok plan := by
  by_cases inputs : sized.equation.inputs = []
  · obtain ⟨⟨_, output⟩, shapes, sizes, labels⟩ := sized
    obtain rfl : _ = [] := inputs
    cases strategy <;> exact ⟨_, rfl⟩
  · obtain ⟨plan, h, -⟩ := sized.exists_phases inputs nodup subset strategy model
    exact ⟨plan, h⟩

end SizedEquation

/-- For every strategy and cost model there is a plan, and the plan under other names is the
same one with its labels renamed. The output has to be given, as one that is inferred takes
its order from the names. -/
theorem plan_of_renamed {equation : Equation} {output : Labels} {shapes : List (List Nat)}
    {sized : SizedEquation} {r : Label → Label} (explicit : equation.output = some output)
    (fit : equation.fit shapes = .ok sized) (inj : Function.Injective r) (strategy : Strategy)
    (model : CostModel) :
    ∃ sized' plan, (equation.rename r).fit shapes = .ok sized' ∧
      sized.plan strategy model = .ok plan ∧ sized'.plan strategy model = .ok (plan.rename r) := by
  have fitted := Equation.fitted_of_fit fit
  have subset : ∀ c ∈ sized.output, c ∈ sized.equation.labels := fitted.equation_eq ▸ fitted.subset
  obtain ⟨plan, h⟩ := sized.exists_plan fitted.nodup subset strategy model
  refine ⟨sized.rename r, plan, Equation.fit_rename inj explicit fit, h, ?_⟩
  rw [SizedEquation.plan_rename inj, h]
  rfl

/-- In `iij,jk,kl->i` the label `i` comes first, and last under the name `z`. -/
theorem plan_of_renamed_chain :
    let equation : Equation := ⟨[['i', 'i', 'j'], ['j', 'k'], ['k', 'l']], some ['i']⟩
    let shapes := [[2, 2, 3], [3, 4], [4, 5]]
    let sizes : SizeTable := ⟨[('i', 2), ('j', 3), ('k', 4), ('l', 5)]⟩
    let sized : SizedEquation := ⟨equation, shapes, sizes, ['i']⟩
    let r : Label → Label := Equiv.swap 'i' 'z'
    equation.output = some ['i'] ∧ equation.fit shapes = .ok sized ∧ Function.Injective r ∧
      equation.rename r = ⟨[['z', 'z', 'j'], ['j', 'k'], ['k', 'l']], some ['z']⟩ ∧
      ∃ sized' plan, (equation.rename r).fit shapes = .ok sized' ∧
        sized.plan .optimal .cpu = .ok plan ∧ sized'.plan .optimal .cpu = .ok (plan.rename r) := by
  intro equation shapes sizes sized r
  have explicit : equation.output = some ['i'] := rfl
  have fit : equation.fit shapes = .ok sized := by decide
  have inj : Function.Injective r := (Equiv.swap 'i' 'z').injective
  have renamed : equation.rename r = ⟨[['z', 'z', 'j'], ['j', 'k'], ['k', 'l']], some ['z']⟩ := by
    decide
  exact ⟨explicit, fit, inj, renamed, plan_of_renamed explicit fit inj .optimal .cpu⟩

end Einsum
