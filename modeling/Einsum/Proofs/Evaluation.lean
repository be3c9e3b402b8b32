import Einsum.Proofs.Soundness

/-! The value of a written expression.
The operands denote what the expression means, every step keeps what the tensors at hand
denote, and the last one denotes its own entries. -/

namespace Einsum

theorem factorsOf_zipIdx {α : Type} {inputs : List Labels} {operands : List (Tensor α)}
    (length : operands.length = inputs.length) (before : List (Tensor α)) :
    factorsOf (before ++ operands)
        ((inputs.zipIdx before.length).map fun (labels, id) => ⟨id, labels⟩) =
      inputs.zipWith Factor.mk operands := by
  induction inputs generalizing operands before with
  | nil => rfl
  | cons labels inputs ih =>
    cases operands with
    | nil => cases length
    | cons operand operands =>
      have rest := ih (Nat.succ.inj length) (before ++ [operand])
      rw [List.append_assoc, List.singleton_append, List.length_append, List.length_singleton] at rest
      rw [List.zipIdx_cons, List.map_cons, factorsOf, List.filterMap_cons_some (by simp; rfl),
        List.zipWith_cons_cons, ← rest, factorsOf]

section Run

variable {α : Type} [CommSemiring α] {equation : Equation} {sized : SizedEquation}
  {operands values : List (Tensor α)} {value : Tensor α} {plan : Plan}

theorem SizedEquation.Phases.entry (fitted : equation.Fitted (operands.map (·.shape)) sized)
    (phases : sized.Phases plan) (traces : Traces (Tensor.backend α) operands plan.steps values)
    (last : values[plan.result]? = some value) :
    value.entry sized.output = sumOfProducts sized.sizes.size sized.output
      (equation.inputs.zipWith Factor.mk operands) := by
  obtain ⟨-, -, moves⟩ := phases.moves_to_result
  have length : operands.length = sized.equation.inputs.length := by
    simpa using fitted.length_eq
  have final : factorsOf values [⟨plan.result, sized.output⟩] = [⟨sized.output, value⟩] := by
    simp [factorsOf, last]
  have first : factorsOf operands sized.operands = sized.equation.inputs.zipWith Factor.mk operands :=
    factorsOf_zipIdx length []
  rw [← fitted.equation_eq, ← first, moves.sumOfProducts_eq length fitted.held traces, final]
  exact (sumOfProducts_singleton sized.sizes.size ⟨sized.output, value⟩).symm

end Run

/-- Whatever the settings, an expression that can be read and fits its operands is planned, and
the plan gives the sum of products over all labels that the output lacks. -/
theorem plan_run_eq_sumOfProducts {α : Type} [CommSemiring α] {text : String}
    {operands : List (Tensor α)} {equation : Equation} {sized : SizedEquation}
    (parse : Equation.ofText text operands.length = .ok equation)
    (fit : equation.fit (operands.map (·.shape)) = .ok sized) (settings settings' : Settings) :
    ∃ plan, planText text (operands.map (·.shape)) settings = .ok plan ∧
      (plan.IsAddressable → ∃ value, plan.run (Tensor.backend α) operands settings' = .ok value ∧
        value.shape = sized.sizes.shape equation.outputLabels ∧
        ∀ index, (offset? value.shape index).isSome → value.get? index =
          some (sumOfProducts sized.sizes.size equation.outputLabels
            (equation.inputs.zipWith Factor.mk operands)
            (Assignment.set (fun _ => 0) equation.outputLabels index))) := by
  have fitted := Equation.fitted_of_fit fit
  obtain ⟨plan, hplan, ⟨phases⟩⟩ := Equation.exists_phases parse fit settings
  refine ⟨plan, ?_, fun addressable => ?_⟩
  · rw [← List.length_map] at parse
    exact bind_eq_ok_iff.2 ⟨equation, parse, bind_eq_ok_iff.2 ⟨sized, fit, hplan⟩⟩
  obtain ⟨values, value, traces, last, result, shape, -⟩ := phases.exists_values fitted addressable
  have shape : value.shape = sized.sizes.shape sized.output := shape.trans phases.outputShape
  have final : values[plan.result]? = some value := by
    rw [← last, List.getLast?_eq_getElem?, ← result, Nat.add_sub_cancel]
  have entry := phases.entry fitted traces final
  rw [← fitted.output_eq]
  refine ⟨value, phases.run_eq_ok fitted traces last result settings', shape, fun index hi => ?_⟩
  have length : index.length = sized.output.length := by
    simpa [shape, SizeTable.shape] using length_of_isSome_offset? hi
  have map := Assignment.map_set (x := fun _ => 0) fitted.nodup length
  have within : Assignment.Within (Assignment.set (fun _ => 0) sized.output index)
      sized.sizes.size sized.output := by
    rw [shape] at hi
    rw [← isSome_offset?_map_iff, map]
    exact hi
  rw [← entry, ← Tensor.get?_eq_some_entry shape within, map]

/-- The product of two matrices, planned cheaply and run in a fixed order. -/
theorem plan_run_eq_sumOfProducts_matrices :
    let operands : List (Tensor Nat) := [⟨[2, 2], #[1, 2, 3, 4], rfl⟩, ⟨[2, 2], #[5, 6, 7, 8], rfl⟩]
    ∃ plan value, planText "ij,jk->ik" [[2, 2], [2, 2]] .fast = .ok plan ∧
      plan.run (Tensor.backend Nat) operands .safe = .ok value ∧ value.shape = [2, 2] ∧
      value.get? [0, 1] = some (1 * 6 + 2 * 8) := by
  intro operands
  let equation : Equation := ⟨[['i', 'j'], ['j', 'k']], some ['i', 'k']⟩
  let sizes : SizeTable := ⟨[('i', 2), ('j', 2), ('k', 2)]⟩
  have parse : Equation.ofText "ij,jk->ik" operands.length = .ok equation := by rfl
  have fit : equation.fit (operands.map (·.shape)) =
      .ok ⟨equation, [[2, 2], [2, 2]], sizes, ['i', 'k']⟩ := by rfl
  have small : (planText "ij,jk->ik" [[2, 2], [2, 2]] .fast).map (fun plan =>
      decide plan.IsAddressable) = .ok true := by rfl
  obtain ⟨plan, hplan, runs⟩ := plan_run_eq_sumOfProducts parse fit .fast .safe
  have hplan : planText "ij,jk->ik" [[2, 2], [2, 2]] .fast = .ok plan := hplan
  have addressable : plan.IsAddressable := by simpa [hplan, Except.map] using small
  obtain ⟨value, hrun, shape, entry⟩ := runs addressable
  refine ⟨plan, value, hplan, hrun, shape, (entry [0, 1] ?_).trans ?_⟩
  · rw [shape]
    rfl
  · rfl

end Einsum
