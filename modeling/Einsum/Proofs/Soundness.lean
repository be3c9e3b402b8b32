import Einsum.Proofs.Phases
import Einsum.Proofs.Values

/-! A planned expression does not fail.
`Action.Fits` says which shapes an action can work on. Every action of a plan fits the
shapes of what it reads, so on operands of the planned shapes every step succeeds, up to
contractions too large to address, and the value has the planned shape. Other operands are
refused before the first step. -/

namespace Einsum

namespace Action

/-- Whether an action can work on tensors of the given shapes. -/
def Fits : Action → List (List Nat) → Prop
  | .diagonalize _ groups, [shape] =>
    ∀ group ∈ groups, ∃ size, ∀ axis ∈ group.axes, shape[axis]? = some size
  | .reduceSum _ axes _, [shape] => ∀ axis ∈ axes, axis < shape.length
  | .contract _ _ _ axes _, [left, right] =>
    (∀ pair ∈ axes.batch ++ axes.summed, ∃ size,
      left[pair.1]? = some size ∧ right[pair.2]? = some size) ∧
      axes.leftOrder.Perm (List.range left.length) ∧
      axes.rightOrder.Perm (List.range right.length)
  | .permute _ axes, [shape] => axes.Perm (List.range shape.length)
  | _, _ => False

theorem Relabels.fits {action : Action} {read : List Labels} {made : Labels}
    (relabels : action.Relabels read made) (size : Label → Nat) :
    action.Fits (read.map (·.map size)) := by
  cases relabels with
  | diagonalize id labels =>
    intro group hm
    obtain ⟨c, -, hg⟩ := List.mem_filterMap.1 hm
    refine ⟨size c, fun axis ha => ?_⟩
    obtain ⟨-, rfl⟩ : 1 < (labels.axesOf c).length ∧ ⟨c, labels.axesOf c⟩ = group := by
      simpa using hg
    simp [Labels.mem_axesOf.1 ha]
  | reduceSum id nodup distinct subset =>
    intro axis hm
    simpa using below_positions axis hm
  | @contract left right a b keep flops leftNodup rightNodup =>
    have named := ContractionAxes.named_ofPairing keep leftNodup rightNodup
    refine ⟨fun pair hm => ?_, by simpa using named.leftPerm, by simpa using named.rightPerm⟩
    obtain ⟨c, hl, hr⟩ := named.paired pair hm
    exact ⟨size c, by simp [hl], by simp [hr]⟩
  | permute id nodup perm => simpa [Fits] using map_idxOf_perm nodup perm

end Action

section Moves

variable {α : Type} {size : Label → Nat} {output : Labels} {sources sources' : List Source}
  {values args values' : List (Tensor α)}

theorem Move.fits {step : Step} (move : Move output values.length sources step sources')
    (held : Held size values sources)
    (reads : step.action.inputs.mapM (fun id => values[id]?) = some args) :
    step.action.Fits (args.map (·.shape)) := by
  obtain @⟨_, old, rest, action, made, before, -, inputs, relabels, -, -⟩ := move
  have heldOld : Held size values old :=
    fun source hm => held source (before.mem_iff.2 (List.mem_append_left _ hm))
  obtain rfl := Option.some.inj (reads.symm.trans (inputs ▸ heldOld.reads))
  have shapes : ((factorsOf values old).map (·.tensor)).map (·.shape) =
      (old.map (·.labels)).map (·.map size) := by
    rw [← heldOld.labels, List.map_map, List.map_map]
    exact List.map_congr_left fun factor hm => heldOld.fits factor hm
  rw [shapes]
  exact relabels.fits size

theorem Moves.fits [Zero α] [Add α] [Mul α] {next : Nat} {steps : List Step}
    (moves : Moves output next sources steps sources') (length : values.length = next)
    (held : Held size values sources) (traces : Traces (Tensor.backend α) values steps values') :
    ∀ step ∈ steps, ∃ args, step.action.inputs.mapM (fun id => values'[id]?) = some args ∧
      step.action.Fits (args.map (·.shape)) := by
  induction moves generalizing values with
  | nil => simp
  | cons move moves ih =>
    obtain _ | ⟨reads, apply, rest⟩ := id traces
    subst length
    refine List.forall_mem_cons.2 ⟨⟨_, traces.mapM_getElem? reads, move.fits held reads⟩, ?_⟩
    exact ih (by simp) (move.held_append held reads apply) rest

end Moves

/-- The size of a label in a plan, as the shapes of the operands tell it. -/
def Plan.sizeOf (plan : Plan) (c : Label) : Nat :=
  ((Equation.sizePairs plan.inputs plan.inputShapes).lookup c).getD 1

/-- No contraction of a plan makes a tensor too large to address. -/
def Plan.IsAddressable (plan : Plan) : Prop :=
  ∀ step ∈ plan.steps, step.action.isContraction → isAddressable (step.output.map plan.sizeOf)

instance (plan : Plan) : Decidable plan.IsAddressable :=
  inferInstanceAs (Decidable (∀ step ∈ plan.steps, _ → _))

theorem Equation.Fitted.size_eq {equation : Equation} {shapes : List (List Nat)}
    {sized : SizedEquation} (fitted : Fitted equation shapes sized) {plan : Plan}
    (phases : sized.Phases plan) : sized.sizes.size = plan.sizeOf := by
  funext c
  rw [SizeTable.size, fitted.get?, Plan.sizeOf, phases.inputs, phases.inputShapes, fitted.equation_eq,
    fitted.shapes_eq]

theorem Equation.Fitted.held {α : Type} {equation : Equation} {sized : SizedEquation}
    {operands : List (Tensor α)} (fitted : Fitted equation (operands.map (·.shape)) sized) :
    Held sized.sizes.size operands sized.operands := by
  intro source hm
  obtain ⟨id, hid⟩ := List.mem_iff_getElem?.1 hm
  rw [SizedEquation.getElem?_operands] at hid
  obtain ⟨labels, hl, rfl⟩ := Option.map_eq_some_iff.1 hid
  have shape := congrArg (fun shapes => shapes[id]?) fitted.shapes_map
  rw [fitted.equation_eq] at hl
  simp only [List.getElem?_map, hl, Option.map_some] at shape
  obtain ⟨t, ht, hs⟩ := Option.map_eq_some_iff.1 shape
  exact ⟨t, ht, hs⟩

section Run

variable {α : Type} [Zero α] [Add α] [Mul α] {equation : Equation} {sized : SizedEquation}
  {operands : List (Tensor α)} {plan : Plan}

theorem SizedEquation.Phases.exists_values
    (fitted : equation.Fitted (operands.map (·.shape)) sized) (phases : sized.Phases plan)
    (addressable : plan.IsAddressable) :
    ∃ values value, Traces (Tensor.backend α) operands plan.steps values ∧
      values.getLast? = some value ∧ plan.result + 1 = values.length ∧
      value.shape = plan.outputShape ∧
      ∀ step ∈ plan.steps, ∃ args, step.action.inputs.mapM (fun id => values[id]?) = some args ∧
        step.action.Fits (args.map (·.shape)) := by
  obtain ⟨-, number, moves⟩ := phases.moves_to_result
  have length : operands.length = sized.equation.inputs.length := by
    simpa using fitted.length_eq
  rw [Plan.IsAddressable, ← fitted.size_eq phases] at addressable
  obtain ⟨values, traces⟩ := moves.exists_traces length fitted.held addressable
  obtain ⟨value, hv, shape⟩ := moves.held length fitted.held traces ⟨plan.result, sized.output⟩
    (by simp)
  have result : plan.result + 1 = values.length := by rw [traces.length_eq, number, length]
  refine ⟨values, value, traces, ?_, result, ?_, moves.fits length fitted.held traces⟩
  · rw [List.getLast?_eq_getElem?, ← result, Nat.add_sub_cancel, hv]
  · rw [shape, phases.outputShape]
    rfl

/-- Running a plan is no more than finding the values of its steps. -/
theorem SizedEquation.Phases.run_eq_ok
    (fitted : equation.Fitted (operands.map (·.shape)) sized) (phases : sized.Phases plan)
    {values : List (Tensor α)} {value : Tensor α}
    (traces : Traces (Tensor.backend α) operands plan.steps values)
    (last : values.getLast? = some value) (result : plan.result + 1 = values.length)
    (settings : Settings) : plan.run (Tensor.backend α) operands settings = .ok value := by
  have shapes : plan.inputShapes = operands.map (·.shape) :=
    phases.inputShapes.trans fitted.shapes_eq
  have length : operands.length = plan.inputs.length := by
    rw [phases.inputs, ← fitted.length_eq, List.length_map]
  have accepted : plan.requireOperands (Tensor.backend α) operands = .ok () := by
    rw [Plan.requireOperands, if_neg (by simp [length]), shapes]
    exact (Plan.requireShapes_eq_ok_iff rfl 0).2 rfl
  exact Einsum.run_eq_ok traces phases.moves_to_result.1 length result last accepted settings

end Run

/-- An expression that was read and fits its shapes has a plan, whatever the strategy. -/
theorem Equation.exists_phases {text : String} {operands : Nat} {shapes : List (List Nat)}
    {equation : Equation} {sized : SizedEquation}
    (parse : Equation.ofText text operands = .ok equation) (fit : equation.fit shapes = .ok sized)
    (settings : Settings) :
    ∃ plan, sized.plan settings.strategy settings.costModel = .ok plan ∧
      Nonempty (sized.Phases plan) := by
  have fitted := Equation.fitted_of_fit fit
  have inputs : sized.equation.inputs ≠ [] := by
    rw [fitted.equation_eq]
    exact Equation.inputs_ne_nil parse
  obtain ⟨plan, hplan, phases, -⟩ := sized.exists_phases inputs fitted.nodup
    (fitted.equation_eq ▸ fitted.subset) settings.strategy settings.costModel
  exact ⟨plan, hplan, ⟨phases⟩⟩

/-- A planned expression was read and fits the shapes that it was planned for. -/
theorem exists_phases_of_planText {text : String} {shapes : List (List Nat)} {settings : Settings}
    {plan : Plan} (h : planText text shapes settings = .ok plan) :
    ∃ equation sized, Equation.ofText text shapes.length = .ok equation ∧
      equation.Fitted shapes sized ∧ Nonempty (sized.Phases plan) := by
  obtain ⟨equation, parse, h⟩ := bind_eq_ok_iff.1 h
  obtain ⟨sized, fit, h⟩ := bind_eq_ok_iff.1 h
  obtain ⟨plan', hplan, phases⟩ := Equation.exists_phases parse fit settings
  obtain rfl := Except.ok.inj (h.symm.trans hplan)
  exact ⟨equation, sized, parse, Equation.fitted_of_fit fit, phases⟩

/-- A planned expression gives a value if and only if the operands have the planned shapes;
the value has the planned shape, and each action fits what it reads. Otherwise the number of
operands or else the first other shape is reported. -/
theorem planned_runs {α : Type} [Zero α] [Add α] [Mul α] {text : String}
    {shapes : List (List Nat)} {settings : Settings} {plan : Plan}
    (h : planText text shapes settings = .ok plan) (addressable : plan.IsAddressable)
    (operands : List (Tensor α)) (settings' : Settings) :
    ((∃ value, plan.run (Tensor.backend α) operands settings' = .ok value) ↔
      operands.map (·.shape) = shapes) ∧
    (operands.map (·.shape) = shapes → ∃ values value,
      Traces (Tensor.backend α) operands plan.steps values ∧
      (∀ step ∈ plan.steps, ∃ args, step.action.inputs.mapM (fun id => values[id]?) = some args ∧
        step.action.Fits (args.map (·.shape))) ∧
      plan.run (Tensor.backend α) operands settings' = .ok value ∧
      value.shape = plan.outputShape) ∧
    (operands.length ≠ shapes.length → plan.run (Tensor.backend α) operands settings' =
      .error (.operandCount shapes.length operands.length)) ∧
    (operands.length = shapes.length → ∀ k got expected,
      (∀ j < k, (operands.map (·.shape))[j]? = shapes[j]?) →
      (operands.map (·.shape))[k]? = some got → shapes[k]? = some expected → got ≠ expected →
      plan.run (Tensor.backend α) operands settings' = .error (.planShape k expected got)) := by
  obtain ⟨equation, sized, parse, fitted, ⟨phases⟩⟩ := exists_phases_of_planText h
  have inputShapes : plan.inputShapes = shapes := phases.inputShapes.trans fitted.shapes_eq
  have inputs : plan.inputs.length = shapes.length := by
    rw [phases.inputs, fitted.length_eq]
  have runs (same : operands.map (·.shape) = shapes) : ∃ values value,
      Traces (Tensor.backend α) operands plan.steps values ∧
      (∀ step ∈ plan.steps, ∃ args, step.action.inputs.mapM (fun id => values[id]?) = some args ∧
        step.action.Fits (args.map (·.shape))) ∧
      plan.run (Tensor.backend α) operands settings' = .ok value ∧
      value.shape = plan.outputShape := by
    subst same
    obtain ⟨values, value, traces, last, result, shape, fits⟩ :=
      phases.exists_values fitted addressable
    exact ⟨values, value, traces, fits, phases.run_eq_ok fitted traces last result settings', shape⟩
  refine ⟨⟨fun h => ?_, fun same => ?_⟩, runs, fun length => ?_, ?_⟩
  · obtain ⟨value, h⟩ := h
    rw [← inputShapes] at inputs
    exact (Plan.shapes_eq_of_run inputs h).trans inputShapes
  · obtain ⟨values, value, -, -, h, -⟩ := runs same
    exact ⟨value, h⟩
  · rw [← inputs] at length ⊢
    exact Plan.run_eq_operandCount length
  · intro length k got expected same hg he ne
    rw [← inputShapes] at same he
    exact Plan.run_eq_planShape (length.trans inputs.symm) same hg he ne

/-- A plan for the product of two matrices takes them in the planned order only. -/
theorem planned_runs_matrices :
    let left : Tensor Nat := ⟨[1, 2], #[1, 2], rfl⟩
    let right : Tensor Nat := ⟨[2, 1], #[3, 4], rfl⟩
    ∃ plan, planText "ij,jk->ik" [[1, 2], [2, 1]] .fast = .ok plan ∧ plan.IsAddressable ∧
      (∃ value, plan.run (Tensor.backend Nat) [left, right] .fast = .ok value) ∧
      plan.run (Tensor.backend Nat) [right, left] .fast =
        .error (.planShape 0 [1, 2] [2, 1]) := by
  intro left right
  have small : (planText "ij,jk->ik" [[1, 2], [2, 1]] .fast).map (fun plan =>
      decide plan.IsAddressable) = .ok true := by rfl
  cases h : planText "ij,jk->ik" [[1, 2], [2, 1]] .fast with
  | error e => rw [h] at small; cases small
  | ok plan =>
    rw [h] at small
    have addressable : plan.IsAddressable := by simpa [Except.map] using small
    have runs := (planned_runs h addressable [left, right] .fast).1.2 rfl
    have refused := (planned_runs h addressable [right, left] .fast).2.2.2 rfl 0 [2, 1] [1, 2]
      (fun j hj => absurd hj (Nat.not_lt_zero j)) rfl rfl (by decide)
    exact ⟨plan, rfl, addressable, runs, refused⟩

end Einsum
