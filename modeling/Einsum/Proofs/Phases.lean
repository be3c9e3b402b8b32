import Einsum.Proofs.Fitting
import Einsum.Proofs.Planning

/-! The sums of a plan and the order of its steps.
A plan first takes diagonals, then sums private labels, then contracts and at last puts the
axes in order. Every label that the output lacks is summed once on the way, by one of the
early sums or by a contraction, and no label of the output ever is. -/

namespace Einsum

def Plan.labelsOf? (plan : Plan) (id : Nat) : Option Labels :=
  plan.inputs[id]?.or ((plan.stepFor? id).map (·.output))

namespace SizedEquation.Phases

variable {sized : SizedEquation} {plan : Plan} (phases : Phases sized plan)

/-- The steps before the axes are put in order. -/
def early : List Step := phases.diagonals ++ phases.sums ++ phases.contractions

theorem steps_eq : plan.steps = phases.early ++ phases.orders := phases.steps

include phases

theorem exists_moves : ∃ id, Moves sized.output sized.equation.inputs.length sized.operands
    plan.steps [⟨id, sized.output⟩] := by
  obtain ⟨id, value⟩ := phases.value
  exact ⟨id, phases.steps ▸ phases.moves.append value⟩

/-- The tensor that the contractions leave is the last one made, or else the only operand. -/
theorem last_spec :
    phases.last.id + 1 = sized.equation.inputs.length + phases.early.length ∧
      plan.labelsOf? phases.last.id = some phases.last.labels := by
  have moves : Moves sized.output sized.equation.inputs.length sized.operands phases.early
    [phases.last] := phases.moves
  cases h : phases.early.getLast? with
  | none =>
    have none : phases.early = [] := List.getLast?_eq_none_iff.1 h
    rw [none] at moves
    have length := sized.length_operands
    have operand := sized.getElem?_operands 0
    rw [← moves.eq_of_nil] at length operand
    obtain ⟨labels, hl, heq⟩ := Option.map_eq_some_iff.1 operand.symm
    rw [← heq, Plan.labelsOf?, phases.inputs, hl, none, ← length]
    exact ⟨rfl, rfl⟩
  | some step =>
    obtain ⟨number, mem⟩ := moves.result_mem h
    rw [List.mem_singleton] at mem
    have pos : 0 < phases.early.length := List.length_pos_of_mem (List.mem_of_getLast? h)
    have outside : plan.inputs[step.result]? = none :=
      List.getElem?_eq_none (by rw [phases.inputs]; omega)
    have place : plan.steps[step.result - plan.inputs.length]? = some step := by
      have index : step.result - plan.inputs.length = phases.early.length - 1 := by
        rw [phases.inputs]
        omega
      rw [phases.steps_eq, index, ← h, List.getLast?_eq_getElem?]
      exact List.getElem?_append_left (by omega)
    have made : ¬step.result < plan.inputs.length := by
      rw [phases.inputs]
      omega
    rw [← mem, Plan.labelsOf?, outside, Plan.stepFor?, if_neg made, place]
    exact ⟨number, rfl⟩

theorem moves_to_result : plan.steps ≠ [] ∧
    plan.result + 1 = sized.equation.inputs.length + plan.steps.length ∧
    Moves sized.output sized.equation.inputs.length sized.operands plan.steps
      [⟨plan.result, sized.output⟩] := by
  have nonempty : plan.steps ≠ [] := by
    rw [phases.steps_eq]
    rcases phases.order with ⟨-, made⟩ | one
    · have := phases.last_spec.1
      exact List.append_ne_nil_of_left_ne_nil (List.length_pos_iff.1 (by omega)) _
    · exact List.append_ne_nil_of_right_ne_nil _ (by simp [one])
  obtain ⟨id, moves⟩ := phases.exists_moves
  have last := List.getLast?_eq_some_getLast nonempty
  obtain ⟨number, mem⟩ := moves.result_mem last
  have result : plan.result = (plan.steps.getLast nonempty).result := by
    rw [Plan.result, last]
    rfl
  obtain ⟨rfl, -⟩ := Source.mk.inj (List.mem_singleton.1 mem)
  rw [result]
  exact ⟨nonempty, number, moves⟩

theorem permute_of_mem_orders : ∀ step ∈ phases.orders, step.action.name = "permute" := by
  rcases phases.order with ⟨h, -⟩ | h <;> simp [h, Action.name]

/-- Nothing is left to sum after the contractions. -/
theorem steps_eq_finish :
    let final := sized.finish (sized.equation.inputs.length + sized.prepare.1.length +
      phases.contractions.length) phases.table.getLast?
    plan.steps = sized.prepare.1 ++ phases.contractions ++ final ∧
      ∀ step ∈ final, step.action.name = "permute" := by
  rw [phases.newest, phases.finished, phases.prepared]
  exact ⟨phases.steps, phases.permute_of_mem_orders⟩

theorem names_eq : plan.steps.map (·.action.name) =
    List.replicate phases.diagonals.length "diagonalize" ++
      List.replicate phases.sums.length "reduce_sum" ++
      List.replicate (sized.equation.inputs.length - 1) "contract" ++
      List.replicate phases.orders.length "permute" := by
  have same (steps : List Step) (name : String) (h : ∀ step ∈ steps, step.action.name = name) :
      steps.map (·.action.name) = List.replicate steps.length name :=
    List.eq_replicate_iff.2 ⟨by simp, by simpa using h⟩
  rw [phases.steps, List.map_append, List.map_append, List.map_append,
    same _ _ phases.diagonal, same _ _ phases.sum, phases.contraction,
    same _ _ phases.permute_of_mem_orders]

/-- Only the last tensor has its axes put in order. -/
theorem permutes_last {step : Step} (hm : step ∈ plan.steps) {input : Nat} {axes : List Nat}
    (h : step.action = .permute input axes) :
    input = phases.last.id ∧ axes = sized.output.filterMap fun c => phases.last.labels.idxOf? c := by
  have name : step.action.name = "permute" := by rw [h]; rfl
  rw [phases.steps, List.mem_append, List.mem_append, List.mem_append] at hm
  rcases hm with ((hm | hm) | hm) | hm
  · rw [phases.diagonal step hm] at name
    exact absurd name (by decide)
  · rw [phases.sum step hm] at name
    exact absurd name (by decide)
  · have := List.mem_map_of_mem (f := fun step : Step => step.action.name) hm
    rw [phases.contraction] at this
    rw [List.eq_of_mem_replicate this] at name
    exact absurd name (by decide)
  · rcases phases.order with ⟨none, -⟩ | one
    · rw [none] at hm
      cases hm
    · rw [one, List.mem_singleton] at hm
      subst hm
      cases h
      exact ⟨rfl, rfl⟩

theorem perm_axes :
    (sized.output.filterMap fun c => phases.last.labels.idxOf? c).Perm
      (List.range phases.last.labels.length) := by
  rw [filterMap_idxOf? fun c hc => phases.perm.mem_iff.1 hc]
  exact map_idxOf_perm phases.nodup phases.perm

theorem count_summed (c : Label) :
    (plan.steps.flatMap (·.action.summed)).count c =
      if c ∈ sized.equation.labels ∧ c ∉ sized.output then 1 else 0 := by
  obtain ⟨id, moves⟩ := phases.exists_moves
  rw [moves.count_summed]
  have last : Alive [⟨id, sized.output⟩] c ↔ c ∈ sized.output := by simp [Alive]
  simp only [alive_operands, last]

end SizedEquation.Phases

/-- For every strategy a plan exists that takes diagonals, sums, contracts and permutes, in
this order, where each label that the output lacks is summed once in total and no other
label is. What the contractions leave carries the labels of the output, each once, so that
after them nothing is left to sum. -/
theorem plan_sums_once {equation : Equation} {shapes : List (List Nat)} {sized : SizedEquation}
    (fit : equation.fit shapes = .ok sized) (inputs : equation.inputs ≠ [])
    (strategy : Strategy) (model : CostModel) :
    ∃ plan, sized.plan strategy model = .ok plan ∧
      (∀ c, (plan.steps.flatMap (·.action.summed)).count c =
        if c ∈ equation.labels ∧ c ∉ sized.output then 1 else 0) ∧
      (∃ path contractions table,
        (sized.network sized.prepare.2).path model strategy = .ok path ∧
        Source.follow (equation.inputs.length + sized.prepare.1.length) sized.prepare.2 path.steps =
          .ok (contractions, table) ∧
        let final := sized.finish (equation.inputs.length + sized.prepare.1.length +
          contractions.length) table.getLast?
        plan.steps = sized.prepare.1 ++ contractions ++ final ∧
          ∀ step ∈ final, step.action.name = "permute") ∧
      ∃ diagonals sums orders last labels,
        plan.steps.map (·.action.name) = List.replicate diagonals "diagonalize" ++
          List.replicate sums "reduce_sum" ++
          List.replicate (equation.inputs.length - 1) "contract" ++
          List.replicate orders "permute" ∧
        orders ≤ 1 ∧
        last + 1 = equation.inputs.length + (diagonals + sums + (equation.inputs.length - 1)) ∧
        plan.labelsOf? last = some labels ∧
        (sized.output.filterMap fun c => labels.idxOf? c).Perm (List.range labels.length) ∧
        ∀ step ∈ plan.steps, ∀ input axes, step.action = .permute input axes →
          input = last ∧ axes = sized.output.filterMap fun c => labels.idxOf? c := by
  have fitted := Equation.fitted_of_fit fit
  obtain rfl := fitted.equation_eq
  obtain ⟨plan, hplan, phases, hpath⟩ :=
    sized.exists_phases inputs fitted.nodup fitted.subset strategy model
  obtain ⟨number, labels⟩ := phases.last_spec
  have contractions : phases.contractions.length = sized.equation.inputs.length - 1 := by
    simpa using congrArg List.length phases.contraction
  have orders : phases.orders.length ≤ 1 := by
    rcases phases.order with ⟨h, -⟩ | h <;> simp [h]
  refine ⟨plan, hplan, phases.count_summed,
    ⟨_, _, _, hpath, phases.followed, phases.steps_eq_finish⟩, _, _, _, _, _, phases.names_eq, orders,
    ?_, labels, phases.perm_axes, fun step hm input axes h => phases.permutes_last hm h⟩
  rw [number, SizedEquation.Phases.early, List.length_append, List.length_append, contractions]

/-- In `iij,jk,kl->i` a diagonal is taken, `l` is summed early and `j` and `k` when two
operands meet. -/
theorem plan_sums_once_chain :
    let equation : Equation := ⟨[['i', 'i', 'j'], ['j', 'k'], ['k', 'l']], some ['i']⟩
    let shapes := [[2, 2, 3], [3, 4], [4, 5]]
    let sizes : SizeTable := ⟨[('i', 2), ('j', 3), ('k', 4), ('l', 5)]⟩
    equation.fit shapes = .ok ⟨equation, shapes, sizes, ['i']⟩ ∧ equation.inputs ≠ [] ∧
      ∃ plan, SizedEquation.plan ⟨equation, shapes, sizes, ['i']⟩ .greedy .cpu = .ok plan ∧
        ∀ c, (plan.steps.flatMap (·.action.summed)).count c =
          if c ∈ equation.labels ∧ c ∉ ['i'] then 1 else 0 := by
  intro equation shapes sizes
  have fit : equation.fit shapes = .ok ⟨equation, shapes, sizes, ['i']⟩ := by decide
  have inputs : equation.inputs ≠ [] := by decide
  obtain ⟨plan, hplan, count, -⟩ := plan_sums_once fit inputs .greedy .cpu
  exact ⟨fit, inputs, plan, hplan, count⟩

end Einsum
