import Einsum.Proofs.Phases

/-! Plans define every tensor once and read it once.
The numbers that steps read and those of the tensors at hand afterwards are, taken together,
the numbers at hand before and the new ones, each as often. A plan leaves one tensor at hand,
its value, so that all others are read by one step each and the steps form a tree. -/

namespace Einsum

namespace Plan

/-- The numbers of all tensors that the steps read, step by step. -/
def reads (plan : Plan) : List Nat := plan.steps.flatMap (·.action.inputs)

/-- Step `k` defines tensor `n + k` and reads tensors made before it. -/
def Numbered (plan : Plan) : Prop :=
  ∀ k step, plan.steps[k]? = some step →
    step.result = plan.inputs.length + k ∧ ∀ id ∈ step.action.inputs, id < step.result

/-- The steps form a tree with the value at its root: every other tensor is read once. -/
structure IsTree (plan : Plan) : Prop where
  numbered : plan.Numbered
  count_reads : ∀ id, plan.reads.count id = if id < plan.tensorCount ∧ id ≠ plan.result then 1 else 0
  result_eq : plan.result + 1 = plan.tensorCount
  made : plan.inputs.length ≤ plan.result
  root : ∃ step, plan.steps.getLast? = some step ∧ plan.stepFor? plan.result = some step ∧
    step.output = plan.output

end Plan

section Moves

variable {output : Labels} {next : Nat} {sources sources' : List Source} {step : Step}
  {steps : List Step}

theorem Move.reads_perm (move : Move output next sources step sources') :
    (step.action.inputs ++ sources'.map (·.id)).Perm (sources.map (·.id) ++ [next]) := by
  obtain @⟨_, old, rest, action, made, before, after, inputs, -, -, -⟩ := move
  calc (action.inputs ++ sources'.map (·.id)).Perm
        (old.map (·.id) ++ (next :: rest.map (·.id))) := by
          rw [inputs]
          exact (after.map _).append_left _
    _ |>.Perm ((old ++ rest).map (·.id) ++ [next]) := by
          rw [List.map_append, List.append_assoc]
          exact (List.perm_append_singleton _ _).symm.append_left _
    _ |>.Perm (sources.map (·.id) ++ [next]) := (before.symm.map _).append_right _

theorem Move.inputs_subset (move : Move output next sources step sources') :
    step.action.inputs ⊆ sources.map (·.id) := by
  obtain @⟨_, old, rest, action, made, before, -, inputs, -, -, -⟩ := move
  rw [inputs]
  exact List.map_subset _ fun source hm => before.mem_iff.2 (List.mem_append_left _ hm)

namespace Moves

/-- What the steps read and what they leave is what there was and what they made. -/
theorem reads_perm (moves : Moves output next sources steps sources') :
    (steps.flatMap (·.action.inputs) ++ sources'.map (·.id)).Perm
      (sources.map (·.id) ++ List.range' next steps.length) := by
  induction moves with
  | nil => simp
  | @cons next sources sources' sources'' step steps move moves ih =>
    rw [List.flatMap_cons, List.length_cons, List.range'_succ]
    calc (step.action.inputs ++ steps.flatMap (·.action.inputs) ++ sources''.map (·.id)).Perm
          (step.action.inputs ++ (sources'.map (·.id) ++ List.range' (next + 1) steps.length)) := by
            rw [List.append_assoc]
            exact ih.append_left _
      _ |>.Perm (sources.map (·.id) ++ (next :: List.range' (next + 1) steps.length)) := by
            rw [← List.append_assoc]
            exact (move.reads_perm.append_right _).trans (by simp)

theorem numbered (moves : Moves output next sources steps sources')
    (below : ∀ id ∈ sources.map (·.id), id < next) {k : Nat} (h : steps[k]? = some step) :
    step.result = next + k ∧ ∀ id ∈ step.action.inputs, id < step.result := by
  induction moves generalizing k with
  | nil => cases h
  | @cons next sources sources' _ first steps move moves ih =>
    have result := move.result_mem.1
    cases k with
    | zero =>
      obtain rfl : first = step := by simpa using h
      exact ⟨result, fun id hm => result ▸ below id (move.inputs_subset hm)⟩
    | succ k =>
      have below' : ∀ id ∈ sources'.map (·.id), id < next + 1 := fun id hm => by
        have old := move.reads_perm.mem_iff.1 (List.mem_append_right _ hm)
        rcases List.mem_append.1 old with old | new
        · exact Nat.lt_succ_of_lt (below id old)
        · exact Nat.lt_succ_of_le (Nat.le_of_eq (List.mem_singleton.1 new))
      obtain ⟨number, reads⟩ := ih below' (by simpa using h)
      exact ⟨by omega, reads⟩

end Moves

end Moves

theorem SizedEquation.map_id_operands (sized : SizedEquation) :
    sized.operands.map (·.id) = List.range sized.equation.inputs.length := by
  rw [operands, List.map_map, List.range_eq_range']
  exact List.zipIdx_map_snd 0 sized.equation.inputs

namespace SizedEquation.Phases

variable {sized : SizedEquation} {plan : Plan} (phases : Phases sized plan)

include phases

theorem numbered : plan.Numbered := by
  obtain ⟨-, -, moves⟩ := phases.moves_to_result
  rw [Plan.Numbered, phases.inputs]
  exact fun k step h => moves.numbered (by simp [map_id_operands]) h

theorem reads_perm : (plan.reads ++ [plan.result]).Perm (List.range plan.tensorCount) := by
  obtain ⟨-, -, moves⟩ := phases.moves_to_result
  have all : List.range plan.tensorCount = List.range sized.equation.inputs.length ++
      List.range' sized.equation.inputs.length plan.steps.length := by
    rw [Plan.tensorCount, phases.inputs, List.range_eq_range', List.range_eq_range',
      ← List.range'_append_1, Nat.zero_add]
  rw [all, ← map_id_operands]
  exact moves.reads_perm

theorem isTree : plan.IsTree := by
  obtain ⟨nonempty, number, moves⟩ := phases.moves_to_result
  have pos := List.length_pos_iff.2 nonempty
  have last := List.getLast?_eq_some_getLast nonempty
  have result : plan.result + 1 = plan.tensorCount := by rw [number, Plan.tensorCount, phases.inputs]
  have made : plan.inputs.length ≤ plan.result := by rw [phases.inputs]; omega
  refine ⟨phases.numbered, fun id => ?_, result, made, plan.steps.getLast nonempty, last, ?_, ?_⟩
  · -- the value is the one tensor that is left over
    have count := phases.reads_perm.count_eq id
    rw [List.count_append, List.count_singleton, List.count_range] at count
    grind
  · rw [Plan.stepFor?, if_neg (by omega), ← last, List.getLast?_eq_getElem?]
    congr 1
    rw [Plan.tensorCount] at result
    omega
  · obtain ⟨-, mem⟩ := moves.result_mem last
    rw [phases.output]
    exact congrArg Source.labels (List.mem_singleton.1 mem)

theorem contractionCount_eq : plan.contractionCount = sized.equation.inputs.length - 1 := by
  have names := congrArg (List.count "contract") phases.names_eq
  have named (step : Step) : step.action.isContraction = (step.action.name == "contract") := by
    cases step.action <;> rfl
  have count : plan.contractionCount = (plan.steps.map (·.action.name)).count "contract" := by
    rw [Plan.contractionCount, List.count, List.countP_map]
    exact congrArg (plan.steps.countP ·) (funext named)
  simpa [count, List.count_replicate] using names

end SizedEquation.Phases

/-- For every strategy a plan exists whose steps define the tensors after the operands one
by one, and read every tensor but the value once. The last step makes the value, with the
labels of the output, and there is one contraction less than there are operands. -/
theorem plan_reads_once {equation : Equation} {shapes : List (List Nat)} {sized : SizedEquation}
    (fit : equation.fit shapes = .ok sized) (inputs : equation.inputs ≠ [])
    (strategy : Strategy) (model : CostModel) :
    ∃ plan, sized.plan strategy model = .ok plan ∧ plan.inputs = equation.inputs ∧ plan.IsTree ∧
      plan.contractionCount = equation.inputs.length - 1 := by
  have fitted := Equation.fitted_of_fit fit
  obtain rfl := fitted.equation_eq
  obtain ⟨plan, hplan, ⟨phases⟩⟩ := sized.exists_phases inputs fitted.nodup fitted.subset strategy model
  exact ⟨plan, hplan, phases.inputs, phases.isTree, phases.contractionCount_eq⟩

/-- The chain `iij,jk,kl->li` has a diagonal, two contractions and a permutation. -/
theorem plan_reads_once_chain :
    let equation : Equation := ⟨[['i', 'i', 'j'], ['j', 'k'], ['k', 'l']], some ['l', 'i']⟩
    let shapes := [[2, 2, 3], [3, 4], [4, 5]]
    let sizes : SizeTable := ⟨[('i', 2), ('j', 3), ('k', 4), ('l', 5)]⟩
    equation.fit shapes = .ok ⟨equation, shapes, sizes, ['l', 'i']⟩ ∧ equation.inputs ≠ [] ∧
      ∃ plan, SizedEquation.plan ⟨equation, shapes, sizes, ['l', 'i']⟩ .leftToRight .cpu = .ok plan ∧
        plan.IsTree ∧ plan.contractionCount = 2 := by
  intro equation shapes sizes
  have fit : equation.fit shapes = .ok ⟨equation, shapes, sizes, ['l', 'i']⟩ := by decide
  have inputs : equation.inputs ≠ [] := by decide
  obtain ⟨plan, hplan, -, tree, contractions⟩ := plan_reads_once fit inputs .leftToRight .cpu
  exact ⟨fit, inputs, plan, hplan, tree, contractions⟩

end Einsum
