import Einsum.Proofs.BestTrees
import Einsum.Proofs.Phases

/-! What the optimal strategy promises.
The contractions of a plan follow a path over the labels that the operands have left once
diagonals are taken and private labels are summed. No label there is private, so the path
of the optimal strategy is the cheapest of all. -/

namespace Einsum

def Action.contraction? : Action → Option Contraction
  | .contract left right labels _ flops => some ⟨left, right, labels, flops⟩
  | _ => none

/-- The contractions of a plan, between tensors of the plan. -/
def Plan.contractions (plan : Plan) : List Contraction :=
  plan.steps.filterMap (·.action.contraction?)

/-- The contraction between tensors that have other numbers elsewhere. -/
def Contraction.renumber (number : Nat → Nat) (step : Contraction) : Contraction :=
  { step with left := number step.left, right := number step.right }

namespace Source

theorem replaceEach_contraction? {replace : Source → Option (Action × Labels)}
    (spec : ∀ source action labels, replace source = some (action, labels) →
      action.contraction? = none) (next : Nat) (sources : List Source) :
    (replaceEach replace next sources).1.filterMap (·.action.contraction?) = [] := by
  refine List.filterMap_eq_nil_iff.2 fun step hm => ?_
  obtain ⟨source, -, h⟩ := exists_replaced hm
  exact spec source _ _ h

theorem collapse_contraction? {source : Source} {action : Action} {labels : Labels}
    (h : source.collapse = some (action, labels)) : action.contraction? = none := by
  rw [(collapse_spec h).1]
  rfl

theorem sumOut_contraction? {source : Source} {summed : Labels} {action : Action}
    {labels : Labels} (h : source.sumOut summed = some (action, labels)) :
    action.contraction? = none := by
  rw [(sumOut_spec h).1]
  rfl

theorem arrange_contraction? {source : Source} {operands : Nat} {output : Labels}
    {action : Action} {labels : Labels} (h : source.arrange operands output = some (action, labels)) :
    action.contraction? = none := by
  rw [(arrange_spec h).1]
  rfl

/-- Contractions follow the path, in the numbers that the table has in the end. -/
theorem follow_contractions {next : Nat} {sources table : List Source} {path : List Contraction}
    {steps : List Step} (h : follow next sources path = .ok (steps, table)) :
    sources <+: table ∧ steps.filterMap (·.action.contraction?) =
      path.map (Contraction.renumber (number table)) := by
  induction path generalizing next sources steps with
  | nil =>
    cases h
    exact ⟨List.prefix_refl _, rfl⟩
  | cons pair path ih =>
    rw [follow] at h
    split at h
    · rename_i left right hl hr
      obtain ⟨⟨rest, table'⟩, hrest, h⟩ := bind_eq_ok_iff.1 h
      cases h
      obtain ⟨longer, same⟩ := ih hrest
      have first : sources <+: table := (List.prefix_append _ _).trans longer
      have entry {id : Nat} {source : Source} (found : sources[id]? = some source) :
          number table id = source.id := by
        obtain ⟨more, hmore⟩ := first
        rw [number, ← hmore, List.getElem?_append_left (List.getElem?_eq_some_iff.1 found).1, found]
        rfl
      refine ⟨first, ?_⟩
      rw [List.map_cons, ← same, Contraction.renumber, entry hl, entry hr]
      rfl
    · cases h
    · cases h

end Source

namespace SizedEquation

/-- Whether the output or a second operand has a label of an operand. -/
def needs (sized : SizedEquation) (c : Label) : Bool :=
  sized.output.contains c || 1 < sized.equation.inputs.countP (·.contains c)

/-- What is left to contract: each operand with those of its labels, once each, that are
needed. -/
def reduced (sized : SizedEquation) : Network where
  terms := sized.equation.inputs.map fun labels => labels.distinct.filter sized.needs
  sizes := sized.sizes
  output := sized.output

theorem needs_iff {sized : SizedEquation} {c : Label} : sized.needs c = true ↔
    c ∈ sized.output ∨ 1 < sized.equation.inputs.countP (·.contains c) := by
  simp [needs]

theorem labels_operands (sized : SizedEquation) :
    sized.operands.map (·.labels) = sized.equation.inputs := by
  rw [operands, List.map_map]
  exact List.zipIdx_map_fst 0 sized.equation.inputs

theorem network_prepare (sized : SizedEquation) : sized.network sized.prepare.2 = sized.reduced := by
  let collapsed := Source.replaceEach Source.collapse sized.equation.inputs.length sized.operands
  let sumPrivate (source : Source) :=
    source.sumOut (source.privateLabels collapsed.2 sized.output)
  let next := sized.equation.inputs.length + collapsed.1.length
  have singles : collapsed.2.map (·.labels) = sized.equation.inputs.map Labels.distinct := by
    rw [Source.labels_replaceEach, ← sized.labels_operands, List.map_map]
    exact List.map_congr_left fun source _ => source.labels_collapse
  have count (c : Label) : collapsed.2.countP (·.labels.contains c) =
      sized.equation.inputs.countP (·.contains c) := by
    calc collapsed.2.countP (·.labels.contains c)
        = (collapsed.2.map (·.labels)).countP (·.contains c) := List.countP_map.symm
      _ = sized.equation.inputs.countP fun labels => labels.distinct.contains c := by
          rw [singles, List.countP_map]
          rfl
      _ = sized.equation.inputs.countP (·.contains c) := List.countP_congr fun labels _ => by
          rw [List.contains_iff_mem, List.contains_iff_mem, Labels.mem_distinct]
  have kept (source : Source) (hm : source ∈ collapsed.2) :
      source.labels.filter (· ∉ source.privateLabels collapsed.2 sized.output) =
        source.labels.filter sized.needs := by
    refine List.filter_congr fun c hc => ?_
    have pos : 0 < collapsed.2.countP (·.labels.contains c) :=
      List.countP_pos_iff.2 ⟨source, hm, List.contains_iff_mem.2 hc⟩
    rw [count] at pos
    rw [Bool.eq_iff_iff, decide_eq_true_eq, Source.mem_privateLabels, count, needs_iff]
    grind
  have terms : (Source.replaceEach sumPrivate next collapsed.2).2.map (·.labels) =
      sized.reduced.terms := by
    rw [Source.labels_replaceEach]
    calc collapsed.2.map (fun source => ((sumPrivate source).map (·.2)).getD source.labels)
        = collapsed.2.map fun source => source.labels.filter sized.needs :=
          List.map_congr_left fun source hm => (source.labels_sumOut _).trans (kept source hm)
      _ = (collapsed.2.map (·.labels)).map (·.filter sized.needs) := by
          rw [List.map_map]
          rfl
      _ = sized.reduced.terms := by
          rw [singles, List.map_map]
          rfl
  exact congrArg (fun terms => (⟨terms, sized.sizes, sized.output⟩ : Network)) terms

theorem reduced_reduced (sized : SizedEquation) : sized.reduced.Reduced where
  nodup := List.forall_mem_map.2 fun labels _ => (nodup_eraseDups labels).filter _
  shared := List.forall_mem_map.2 fun labels _ c hc => by
    have needed := (List.mem_filter.1 hc).2
    have same : sized.reduced.terms.countP (·.contains c) =
        sized.equation.inputs.countP (·.contains c) := by
      rw [reduced, List.countP_map]
      refine List.countP_congr fun labels _ => ?_
      rw [Function.comp, List.contains_iff_mem, List.contains_iff_mem, List.mem_filter,
        Labels.mem_distinct]
      exact and_iff_left needed
    rw [same]
    exact needs_iff.1 needed

/-- The contractions of a plan are those of the path over the reduced operands. -/
theorem contractions_plan {sized : SizedEquation} {strategy : Strategy} {model : CostModel}
    {plan : Plan} (h : sized.plan strategy model = .ok plan) :
    ∃ path number, sized.reduced.path model strategy = .ok path ∧ plan.flops = path.flops ∧
      plan.contractions = path.steps.map (Contraction.renumber number) := by
  obtain ⟨path, contractions, table, hpath, hfollow, steps, flops⟩ := parts_of_plan h
  rw [network_prepare] at hpath
  refine ⟨path, Source.number table, hpath, flops, ?_⟩
  have first : sized.prepare.1.filterMap (·.action.contraction?) = [] := by
    rw [prepare, List.filterMap_append,
      Source.replaceEach_contraction? fun _ _ _ => Source.collapse_contraction?,
      Source.replaceEach_contraction? fun _ _ _ => Source.sumOut_contraction?]
    rfl
  have last (next : Nat) (source : Option Source) :
      (sized.finish next source).filterMap (·.action.contraction?) = [] := by
    rw [finish, List.filterMap_append,
      Source.replaceEach_contraction? fun _ _ _ => Source.sumOut_contraction?,
      Source.replaceEach_contraction? fun _ _ _ => Source.arrange_contraction?]
    rfl
  rw [Plan.contractions, steps, List.filterMap_append, List.filterMap_append, first, last,
    (Source.follow_contractions hfollow).2, List.nil_append, List.append_nil]

theorem length_reduced (sized : SizedEquation) :
    sized.reduced.terms.length = sized.equation.inputs.length := List.length_map _

end SizedEquation

/-- All sets are tried for few terms only. -/
theorem Strategy.le_of_forTerms_eq_optimal {strategy : Strategy} {terms : Nat}
    (h : strategy.forTerms terms = .optimal) : terms ≤ Network.subsetLimit := by
  cases strategy with
  | leftToRight | greedy => cases h
  | optimal =>
    rw [forTerms] at h
    split at h
    · cases h
    · omega
  | auto =>
    rw [forTerms] at h
    split at h
    · exact Nat.le_trans ‹_› (by decide)
    · cases h

/-- Where the strategy comes down to trying all sets, the contractions of the plan follow a
path whose estimated total cost is no more than that of any other contractions that leave
one tensor of the reduced operands, such as the path of any other strategy. -/
theorem optimal_plan_cheapest {equation : Equation} {shapes : List (List Nat)} {sized : SizedEquation}
    (fit : equation.fit shapes = .ok sized) (inputs : equation.inputs ≠ []) {strategy : Strategy}
    (optimal : strategy.forTerms equation.inputs.length = .optimal) (model : CostModel) :
    let network := sized.reduced
    let start := Pool.ofTerms network.terms
    ∃ plan path number cost, sized.plan strategy model = .ok plan ∧
      sized.network sized.prepare.2 = network ∧ network.path model strategy = .ok path ∧
      plan.contractions = path.steps.map (Contraction.renumber number) ∧
      network.expense model start path.steps = .ok cost ∧
      (∀ steps pool, Network.Replays network model start steps pool → pool.live.length = 1 →
        ∃ cost', network.expense model start steps = .ok cost' ∧ cost.total ≤ cost'.total) ∧
      ∀ other, ∃ path' cost', network.path model other = .ok path' ∧
        network.expense model start path'.steps = .ok cost' ∧ cost.total ≤ cost'.total := by
  intro network start
  have fitted := Equation.fitted_of_fit fit
  obtain rfl := fitted.equation_eq
  obtain ⟨plan, hplan, -⟩ := sized.exists_phases inputs fitted.nodup fitted.subset strategy model
  obtain ⟨path, number, hpath, -, contractions⟩ := SizedEquation.contractions_plan hplan
  have length := sized.length_reduced
  have terms : network.terms ≠ [] :=
    List.length_pos_iff.1 (length ▸ List.length_pos_of_ne_nil inputs)
  obtain ⟨best, cost, hbest, hcost, least⟩ := sized.reduced_reduced.best_cheapest model terms
    (length ▸ Strategy.le_of_forTerms_eq_optimal optimal)
  have chosen : network.path model strategy = network.best model := by
    rw [Network.path, length, optimal]
  obtain rfl : best = path := Except.ok.inj (hbest.symm.trans (chosen.symm.trans hpath))
  refine ⟨plan, best, number, cost, hplan, sized.network_prepare, hpath, contractions, hcost, least,
    fun other => ?_⟩
  obtain ⟨path', pool, hpath', replays, -, one⟩ := Network.path_replays model other terms
  obtain ⟨cost', hcost', le⟩ := least _ pool replays one
  exact ⟨path', cost', hpath', hcost', le⟩

/-- A chain of four matrices whose product in written order is dear. -/
theorem optimal_plan_cheapest_chain :
    let equation : Equation :=
      ⟨[['i', 'j'], ['j', 'k'], ['k', 'l'], ['l', 'm']], some ['i', 'm']⟩
    let shapes := [[600, 5], [5, 400], [400, 300], [300, 2]]
    let sizes : SizeTable := ⟨[('i', 600), ('j', 5), ('k', 400), ('l', 300), ('m', 2)]⟩
    let sized : SizedEquation := ⟨equation, shapes, sizes, ['i', 'm']⟩
    equation.fit shapes = .ok sized ∧ equation.inputs ≠ [] ∧
      Strategy.auto.forTerms equation.inputs.length = .optimal ∧
      ∃ plan path cost fixed cost', sized.plan .auto .cpu = .ok plan ∧
        sized.reduced.path .cpu .auto = .ok path ∧
        sized.reduced.path .cpu .leftToRight = .ok fixed ∧
        sized.reduced.expense .cpu (.ofTerms sized.reduced.terms) path.steps = .ok cost ∧
        sized.reduced.expense .cpu (.ofTerms sized.reduced.terms) fixed.steps = .ok cost' ∧
        cost.total ≤ cost'.total := by
  intro equation shapes sizes sized
  have fit : equation.fit shapes = .ok sized := by rfl
  have inputs : equation.inputs ≠ [] := by decide
  have optimal : Strategy.auto.forTerms equation.inputs.length = .optimal := by decide
  obtain ⟨plan, path, number, cost, hplan, -, hpath, -, hcost, -, others⟩ :=
    optimal_plan_cheapest fit inputs optimal .cpu
  obtain ⟨fixed, cost', hfixed, hcost', le⟩ := others .leftToRight
  exact ⟨fit, inputs, optimal, plan, path, cost, fixed, cost', hplan, hpath, hfixed, hcost, hcost', le⟩

end Einsum
