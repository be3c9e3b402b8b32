import Einsum.Proofs.Running
import Einsum.Proofs.SingleAssignment

/-! Both ways of running a plan come to the same.
Either all steps succeed on the values made before them, or there is a first one that breaks
down. A run in order stops at the step that breaks down. A walk back from the value meets
every tensor that the value needs, so when it needs all of them the walk meets that step too.
A tensor may be read any number of times. -/

namespace Einsum

variable {τ α : Type} {backend : Backend τ α}

/-- The tensors that have to be computed for the value. -/
inductive Plan.Needed (plan : Plan) : Nat → Prop
  | result : plan.Needed plan.result
  | input {id input : Nat} {step : Step} (needed : plan.Needed id)
      (made : plan.stepFor? id = some step) (reads : input ∈ step.action.inputs) :
    plan.Needed input

/-- Primitives that give a value or an error, whatever they are given. -/
structure Backend.IsFaultless (backend : Backend τ α) : Prop where
  diagonal : ∀ t groups, faultOf? (backend.diagonal t groups) = none
  permute : ∀ t axes, faultOf? (backend.permute t axes) = none
  sumOver : ∀ t axes, faultOf? (backend.sumOver t axes) = none
  contract : ∀ left right axes, faultOf? (backend.contract left right axes) = none

/-- Steps with one whose action fails on the values that those before it made. -/
structure Breakdown (backend : Backend τ α) (operands : List τ) where
  done : List Step
  step : Step
  rest : List Step
  values : List τ
  args : List τ
  error : Error
  traces : Traces backend operands done values
  reads : step.action.inputs.mapM (fun id => values[id]?) = some args
  apply : step.action.apply backend args = .error error

def Breakdown.steps {operands : List τ} (broken : Breakdown backend operands) : List Step :=
  broken.done ++ broken.step :: broken.rest

theorem faultOf?_bind_eq_none {β γ : Type} {x : Except Error β} {f : β → Except Error γ}
    (hx : faultOf? x = none) (hf : ∀ b, faultOf? (f b) = none) : faultOf? (x >>= f) = none := by
  cases x with
  | ok b => exact hf b
  | error e => cases e <;> first | rfl | cases hx

theorem faultOf?_allResults {results : List (Except Error τ)}
    (h : ∀ x ∈ results, faultOf? x = none) : faultOf? (allResults results) = none := by
  rw [allResults, List.findSome?_eq_none_iff.2 h]
  induction results with
  | nil => rfl
  | cons x results ih =>
    obtain ⟨first, h⟩ := List.forall_mem_cons.1 h
    rw [List.mapM_cons]
    exact faultOf?_bind_eq_none first fun _ => faultOf?_bind_eq_none (ih h) fun _ => rfl

/-- All results were there if they could be listed. -/
theorem eq_map_ok_of_allResults {results : List (Except Error τ)} {args : List τ}
    (h : allResults results = .ok args) : results = args.map .ok := by
  have listed : results.mapM id = .ok args := by
    rw [allResults] at h
    split at h
    · cases h
    · exact h
  clear h
  induction results generalizing args with
  | nil =>
    cases listed
    rfl
  | cons x results ih =>
    rw [List.mapM_cons] at listed
    obtain ⟨v, first, listed⟩ := bind_eq_ok_iff.1 listed
    obtain ⟨vs, rest, listed⟩ := bind_eq_ok_iff.1 listed
    obtain rfl := Except.ok.inj listed
    rw [List.map_cons, ← ih rest, show x = .ok v from first]

theorem exists_eq_ok_of_allResults {results : List (Except Error τ)} {args : List τ}
    (h : allResults results = .ok args) : ∀ x ∈ results, ∃ v, x = .ok v := by
  intro x hx
  rw [eq_map_ok_of_allResults h] at hx
  obtain ⟨v, -, rfl⟩ := List.mem_map.1 hx
  exact ⟨v, rfl⟩

theorem Backend.IsFaultless.apply (faultless : backend.IsFaultless) (action : Action) (args : List τ) :
    faultOf? (action.apply backend args) = none := by
  rw [Action.apply.eq_def]
  split
  · exact faultless.diagonal _ _
  · exact faultless.sumOver _ _
  · exact faultless.contract _ _ _
  · exact faultless.permute _ _
  · rfl

/-- Steps that read only what was made before them all succeed, or one of them breaks down. -/
theorem traces_or_breakdown (backend : Backend τ α) {operands : List τ} {steps : List Step}
    (below : ∀ k step, steps[k]? = some step → ∀ id ∈ step.action.inputs, id < operands.length + k) :
    (∃ values, Traces backend operands steps values) ∨
      ∃ broken : Breakdown backend operands, steps = broken.steps := by
  induction steps generalizing operands with
  | nil => exact .inl ⟨operands, .nil⟩
  | cons step steps ih =>
    have first := below 0 step rfl
    obtain ⟨args, reads⟩ : ∃ args, step.action.inputs.mapM (fun id => operands[id]?) = some args :=
      exists_mapM_eq_some fun id hm => by simpa using first id hm
    cases apply : step.action.apply backend args with
    | error e => exact .inr ⟨⟨[], step, steps, operands, args, e, .nil, reads, apply⟩, rfl⟩
    | ok value =>
      have later : ∀ k next, steps[k]? = some next →
          ∀ id ∈ next.action.inputs, id < (operands ++ [value]).length + k := by
        intro k next h id hm
        have := below (k + 1) next h id hm
        rw [List.length_append, List.length_singleton]
        omega
      obtain ⟨values, traces⟩ | ⟨broken, rfl⟩ := ih later
      · exact .inl ⟨values, .cons reads apply traces⟩
      · exact .inr ⟨⟨step :: broken.done, broken.step, broken.rest, broken.values, broken.args,
          broken.error, .cons reads apply broken.traces, broken.reads, broken.apply⟩, rfl⟩

section Walk

variable {plan : Plan} {operands : List τ} (length : operands.length = plan.inputs.length)

include length

theorem Breakdown.runSequential_eq (broken : Breakdown backend operands)
    (steps : plan.steps = broken.steps) : plan.runSequential backend operands = .error broken.error := by
  have start := Run.start_agrees plan operands
  have total : plan.tensorCount = operands.length + plan.steps.length := by
    rw [Plan.tensorCount, length]
  rw [steps, Breakdown.steps, List.flatMap_append, List.flatMap_cons] at start
  obtain ⟨run, hrun, agrees, -⟩ := start.foldlM broken.traces operands.length
    (by rw [total, steps, Breakdown.steps, List.length_append]; omega)
  have args : allResults (broken.step.action.inputs.map run.read) = .ok broken.args :=
    allResults_eq_ok broken.reads fun id hm v hv => agrees.read (List.mem_append_left _ hm) hv
  have stop : Run.step backend operands.length run broken.step = .error broken.error := by
    rw [Run.step, args]
    simp only [bind, Except.bind, broken.apply]
  have all : plan.steps.foldlM (Run.step backend operands.length) (Run.start plan operands) =
      .error broken.error := by
    rw [steps, Breakdown.steps, List.foldlM_append, hrun]
    change List.foldlM (Run.step backend operands.length) run (broken.step :: broken.rest) =
      (.error broken.error : Except Error (Run τ))
    rw [List.foldlM_cons, stop]
    rfl
  rw [Plan.runSequential, all]
  rfl

/-- A walk that is deep enough breaks down where the run in order does. -/
theorem Breakdown.valueAt_eq (broken : Breakdown backend operands)
    (steps : plan.steps = broken.steps) {depth : Nat}
    (deep : plan.inputs.length + broken.done.length < operands.length + depth) :
    plan.valueAt backend operands (depth + 1) (plan.inputs.length + broken.done.length) =
      .error broken.error := by
  obtain ⟨depth, rfl⟩ : ∃ d, depth = d + 1 := Nat.exists_eq_succ_of_ne_zero (by omega)
  have planned : plan.stepFor? (plan.inputs.length + broken.done.length) = some broken.step := by
    rw [Plan.stepFor?, if_neg (by omega), Nat.add_sub_cancel_left, steps, Breakdown.steps,
      List.getElem?_append_right (Nat.le_refl _), Nat.sub_self, List.getElem?_cons_zero]
  have args : allResults (broken.step.action.inputs.map
      (plan.valueAt backend operands (depth + 1))) = .ok broken.args :=
    allResults_eq_ok broken.reads fun id _ v hv => by
      have hlt := (List.getElem?_eq_some_iff.1 hv).1
      rw [broken.traces.length_eq] at hlt
      exact valueAt_eq_ok broken.traces ⟨_, steps.symm⟩ length hv (by omega)
  rw [Plan.valueAt, List.getElem?_eq_none (by omega), planned]
  simp only [bind, Except.bind, args, broken.apply]

/-- Without a value for a tensor that the value needs, there is no value. -/
theorem Plan.Needed.valueAt_result_ne_ok (numbered : plan.Numbered) {id : Nat} (needed : plan.Needed id)
    (h : ∀ depth, id < operands.length + depth →
      ∀ v, plan.valueAt backend operands (depth + 1) id ≠ .ok v) :
    ∀ depth, plan.result < operands.length + depth →
      ∀ v, plan.valueAt backend operands (depth + 1) plan.result ≠ .ok v := by
  induction needed with
  | result => exact h
  | @input id input step _ made reads ih =>
    refine ih fun depth deep v hv => ?_
    rw [Plan.stepFor?] at made
    split at made
    · cases made
    · rename_i outside
      obtain ⟨number, earlier⟩ := numbered _ step made
      have below := earlier input reads
      obtain ⟨depth, rfl⟩ : ∃ d, depth = d + 1 := Nat.exists_eq_succ_of_ne_zero (by omega)
      rw [Plan.valueAt, List.getElem?_eq_none (by omega), Plan.stepFor?, if_neg outside, made] at hv
      obtain ⟨args, hargs, -⟩ := bind_eq_ok_iff.1 hv
      obtain ⟨w, hw⟩ := exists_eq_ok_of_allResults hargs _ (List.mem_map_of_mem reads)
      exact h depth (by omega) w hw

/-- A walk that is deep enough ends. -/
theorem Plan.Numbered.faultOf?_valueAt (numbered : plan.Numbered) (faultless : backend.IsFaultless)
    {id depth : Nat} (deep : id < operands.length + depth) :
    faultOf? (plan.valueAt backend operands (depth + 1) id) = none := by
  induction depth generalizing id with
  | zero =>
    rw [Plan.valueAt, List.getElem?_eq_getElem deep]
    rfl
  | succ depth ih =>
    rw [Plan.valueAt]
    split
    · rfl
    · split
      · rfl
      · rename_i step made
        rw [Plan.stepFor?] at made
        split at made
        · cases made
        · obtain ⟨number, earlier⟩ := numbered _ step made
          refine faultOf?_bind_eq_none (faultOf?_allResults fun x hx => ?_)
            fun args => faultless.apply step.action args
          obtain ⟨input, hm, rfl⟩ := List.mem_map.1 hx
          have := earlier input hm
          exact ih (by omega)

end Walk

theorem Plan.Numbered.result_eq {plan : Plan} (numbered : plan.Numbered) (some_step : plan.steps ≠ []) :
    plan.result + 1 = plan.tensorCount := by
  have pos := List.length_pos_iff.2 some_step
  have last := List.getLast?_eq_some_getLast some_step
  have result : plan.result = (plan.steps.getLast some_step).result := by
    rw [Plan.result, last]
    rfl
  rw [List.getLast?_eq_getElem?] at last
  have := (numbered _ _ last).1
  rw [Plan.tensorCount]
  omega

/-- A plan without steps has its first operand for a value, if there is one. -/
theorem runTree_eq_runSequential_of_nil (backend : Backend τ α) {plan : Plan} {operands : List τ}
    (length : operands.length = plan.inputs.length) (none : plan.steps = []) :
    plan.runTree backend operands = plan.runSequential backend operands ∨
      (∃ e, plan.runTree backend operands = .error e) ∧
        ∃ e, plan.runSequential backend operands = .error e := by
  have result : plan.result = 0 := by rw [Plan.result, none]; rfl
  rw [Plan.runTree, Plan.runSequential, none, result, List.foldlM_nil]
  cases operands with
  | nil =>
    have absent : plan.stepFor? 0 = .none := by simp [Plan.stepFor?, none]
    exact .inr ⟨⟨_, by simp only [Plan.valueAt, absent]; rfl⟩, ⟨_, rfl⟩⟩
  | cons t operands => exact .inl rfl

section Outcome

variable {plan : Plan} {operands : List τ} (numbered : plan.Numbered)
  (length : operands.length = plan.inputs.length)

include numbered length

/-- All steps succeed, and both runs give the last value, or one step breaks down. -/
theorem Plan.Numbered.breaks_down (some_step : plan.steps ≠ []) (backend : Backend τ α) :
    (∃ value, plan.runTree backend operands = .ok value ∧
      plan.runSequential backend operands = .ok value) ∨
      ∃ broken : Breakdown backend operands, plan.steps = broken.steps := by
  have result := numbered.result_eq some_step
  rw [Plan.tensorCount] at result
  have below : ∀ k step, plan.steps[k]? = some step →
      ∀ id ∈ step.action.inputs, id < operands.length + k := fun k step h id hm => by
    obtain ⟨number, earlier⟩ := numbered k step h
    have := earlier id hm
    omega
  obtain ⟨values, traces⟩ | broken := traces_or_breakdown backend below
  · have made : plan.result + 1 = values.length := by rw [traces.length_eq]; omega
    have hlt : plan.result < values.length := by omega
    have last : values.getLast? = some values[plan.result] := by
      rw [List.getLast?_eq_getElem?, ← made, Nat.add_sub_cancel, List.getElem?_eq_getElem hlt]
    exact .inl ⟨_, runTree_eq_ok traces some_step length made last,
      runSequential_eq_ok traces some_step length made last⟩
  · exact .inr broken

theorem Plan.Numbered.same_outcome
    (needed : ∀ k < plan.steps.length, plan.Needed (plan.inputs.length + k)) :
    (∃ value, plan.runTree backend operands = .ok value ∧
      plan.runSequential backend operands = .ok value) ∨
      (∃ e, plan.runTree backend operands = .error e) ∧
        ∃ e, plan.runSequential backend operands = .error e := by
  by_cases some_step : plan.steps = []
  · obtain same | both := runTree_eq_runSequential_of_nil backend length some_step
    · rw [same]
      cases plan.runSequential backend operands with
      | ok value => exact .inl ⟨value, rfl, rfl⟩
      | error e => exact .inr ⟨⟨e, rfl⟩, ⟨e, rfl⟩⟩
    · exact .inr both
  · obtain same | ⟨broken, steps⟩ := numbered.breaks_down length some_step backend
    · exact .inl same
    · refine .inr ⟨?_, _, broken.runSequential_eq length steps⟩
      have result := numbered.result_eq some_step
      rw [Plan.tensorCount] at result
      -- the walk cannot give a value, as it needs that of the step that breaks down
      have place : broken.done.length < plan.steps.length := by simp [steps, Breakdown.steps]
      have stuck : ∀ v, plan.valueAt backend operands (plan.steps.length + 1) plan.result ≠ .ok v :=
        (needed _ place).valueAt_result_ne_ok length numbered (fun depth deep v hv => by
          rw [broken.valueAt_eq length steps deep] at hv
          cases hv) plan.steps.length (by omega)
      rw [Plan.runTree, List.getElem?_eq_none (by omega)]
      change ∃ e, plan.valueAt backend operands (plan.steps.length + 1) plan.result = .error e
      cases h : plan.valueAt backend operands (plan.steps.length + 1) plan.result with
      | ok value => exact absurd h (stuck value)
      | error e => exact ⟨e, rfl⟩

theorem Plan.Numbered.faultOf?_runSequential (faultless : backend.IsFaultless) :
    faultOf? (plan.runSequential backend operands) = none := by
  by_cases some_step : plan.steps = []
  · rw [Plan.runSequential, some_step]
    refine faultOf?_bind_eq_none rfl fun run => ?_
    split
    · rfl
    · exact faultless.permute _ _
    · rfl
  · obtain ⟨value, -, h⟩ | ⟨broken, steps⟩ := numbered.breaks_down length some_step backend
    · rw [h]
      rfl
    · rw [broken.runSequential_eq length steps, ← broken.apply]
      exact faultless.apply _ _

theorem Plan.Numbered.faultOf?_runTree (faultless : backend.IsFaultless) :
    faultOf? (plan.runTree backend operands) = none := by
  rw [Plan.runTree]
  split
  · exact faultless.permute _ _
  · by_cases some_step : plan.steps = []
    · rename_i outside
      have absent : plan.stepFor? plan.result = none := by simp [Plan.stepFor?, some_step]
      simp only [Plan.valueAt, outside, absent]
      rfl
    · have result := numbered.result_eq some_step
      rw [Plan.tensorCount] at result
      exact numbered.faultOf?_valueAt length faultless (by omega)

end Outcome

/-- In a tree every tensor has to be computed. -/
theorem Plan.IsTree.needed {plan : Plan} (tree : plan.IsTree) {id : Nat}
    (below : id < plan.tensorCount) : plan.Needed id := by
  by_cases root : id = plan.result
  · rw [root]
    exact .result
  · have read : id ∈ plan.reads := by
      rw [← List.count_pos_iff, tree.count_reads, if_pos ⟨below, root⟩]
      exact Nat.one_pos
    obtain ⟨step, hm, reads⟩ := List.mem_flatMap.1 read
    obtain ⟨k, hk, rfl⟩ := List.mem_iff_getElem.1 hm
    have planned := List.getElem?_eq_getElem hk
    obtain ⟨number, earlier⟩ := tree.numbered k _ planned
    have later := earlier id reads
    rw [number] at later
    have made : plan.stepFor? (plan.inputs.length + k) = some plan.steps[k] := by
      rw [Plan.stepFor?, if_neg (by omega), Nat.add_sub_cancel_left, planned]
    exact .input (tree.needed (by rw [Plan.tensorCount]; omega)) made reads
termination_by plan.tensorCount - id
decreasing_by omega

/-- So both runs of a plan made here come to the same. -/
theorem Plan.IsTree.same_outcome {plan : Plan} {operands : List τ} (tree : plan.IsTree)
    (length : operands.length = plan.inputs.length) :
    (∃ value, plan.runTree backend operands = .ok value ∧
      plan.runSequential backend operands = .ok value) ∨
      (∃ e, plan.runTree backend operands = .error e) ∧
        ∃ e, plan.runSequential backend operands = .error e :=
  tree.numbered.same_outcome length fun _ hk => tree.needed (Nat.add_lt_add_left hk _)

theorem Plan.length_eq_of_requireOperands {plan : Plan} {operands : List τ}
    (accepted : plan.requireOperands backend operands = .ok ()) :
    operands.length = plan.inputs.length := by
  rw [Plan.requireOperands] at accepted
  split at accepted
  · cases accepted
  · exact Classical.not_not.1 ‹_›

/-- A plan whose steps read what was made before them, each of them for the value in the
end, has the same value run in order and walked back, or both return an error. -/
theorem runTree_agrees_runSequential {plan : Plan} {operands : List τ} (numbered : plan.Numbered)
    (needed : ∀ k < plan.steps.length, plan.Needed (plan.inputs.length + k))
    (accepted : plan.requireOperands backend operands = .ok ()) (faultless : backend.IsFaultless) :
    ((∃ value, plan.runTree backend operands = .ok value ∧
        plan.runSequential backend operands = .ok value) ∨
      (∃ e, plan.runTree backend operands = .error e) ∧
        ∃ e, plan.runSequential backend operands = .error e) ∧
    faultOf? (plan.runTree backend operands) = none ∧
    faultOf? (plan.runSequential backend operands) = none := by
  have length := Plan.length_eq_of_requireOperands accepted
  exact ⟨numbered.same_outcome length needed, numbered.faultOf?_runTree length faultless,
    numbered.faultOf?_runSequential length faultless⟩

/-- A number that is squared twice: its square is read twice, and computed twice by the
walk back. -/
theorem runTree_agrees_runSequential_squares :
    let product (a b : Nat) (_ : ContractionAxes) : Except Error Nat :=
      if a * b < 1000 then .ok (a * b) else .error (.backend .oversizedResult)
    let backend : Backend Nat Nat := ⟨fun _ => [], id, fun t _ => .ok t, fun t _ => .ok t,
      fun t _ => .ok t, product⟩
    let square (id : Nat) : Action := .contract id id ⟨[], [], [], []⟩ ⟨[], [], [], []⟩ 1
    let plan : Plan := ⟨[⟨square 0, [], 1⟩, ⟨square 1, [], 2⟩], [[]], [[]], [], [], .leftToRight, 2⟩
    plan.Numbered ∧ (∀ k < 2, plan.Needed (1 + k)) ∧
      plan.runTree backend [5] = .ok 625 ∧ plan.runSequential backend [5] = .ok 625 ∧
      faultOf? (plan.runTree backend [7]) = none := by
  intro product backend square plan
  have numbered : plan.Numbered := fun k step h => match k with
    | 0 | 1 => by obtain rfl := Option.some.inj h; decide
    | _ + 2 => by cases h
  have last : plan.Needed 2 := .result
  have needed : ∀ k < 2, plan.Needed (1 + k) := fun k _ => match k with
    | 0 => .input last (rfl : plan.stepFor? 2 = some ⟨square 1, [], 2⟩) (by decide)
    | 1 => last
  have faultless : backend.IsFaultless := by
    refine ⟨fun _ _ => rfl, fun _ _ => rfl, fun _ _ => rfl, fun a b axes => ?_⟩
    change faultOf? (if a * b < 1000 then _ else _) = none
    split <;> rfl
  have accepted (n : Nat) : plan.requireOperands backend [n] = .ok () := rfl
  have five := (runTree_agrees_runSequential numbered needed (accepted 5) faultless).1
  have seven := (runTree_agrees_runSequential numbered needed (accepted 7) faultless).2.1
  have value : plan.runTree backend [5] = .ok 625 := rfl
  refine ⟨numbered, needed, value, ?_, seven⟩
  obtain ⟨v, tree, inOrder⟩ | ⟨⟨e, tree⟩, -⟩ := five
  · rwa [← Except.ok.inj (value.symm.trans tree)] at inOrder
  · cases value.symm.trans tree

end Einsum
