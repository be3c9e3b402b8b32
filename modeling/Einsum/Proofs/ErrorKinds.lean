import Einsum.Proofs.Grammar
import Einsum.Proofs.Lifetimes
import Einsum.Proofs.Soundness

/-! The errors of an evaluation, part by part.
What is wrong with the text, the shapes, the operands or the plan is always wrong with a value.
An error of another kind can come from a primitive only, and the primitives on dense tensors
have none. -/

namespace Einsum

variable {β γ τ α : Type} {sort sort' : Error → Prop}

/-- All errors of a computation are of one sort. -/
def FailsOnly (sort : Error → Prop) (x : Except Error β) : Prop := ∀ e, x = .error e → sort e

namespace FailsOnly

variable {x y : Except Error β}

theorem ok (b : β) : FailsOnly sort (.ok b) := nofun

theorem error {e : Error} (h : sort e) : FailsOnly sort (.error e : Except Error β) := by
  rintro _ ⟨⟩
  exact h

theorem imp (hx : FailsOnly sort x) (h : ∀ e, sort e → sort' e) : FailsOnly sort' x :=
  fun e failed => h e (hx e failed)

theorem bind {f : β → Except Error γ} (hx : FailsOnly sort x) (hf : ∀ b, FailsOnly sort (f b)) :
    FailsOnly sort (x >>= f) := by
  intro e failed
  obtain first | ⟨b, -, later⟩ := bind_eq_error_iff.1 failed
  · exact hx e first
  · exact hf b e later

theorem map {f : β → γ} (hx : FailsOnly sort x) : FailsOnly sort (f <$> x) := by
  cases x with
  | ok b => exact ok (f b)
  | error e => exact error (hx e rfl)

theorem ite {p : Prop} [Decidable p] (hx : FailsOnly sort x) (hy : FailsOnly sort y) :
    FailsOnly sort (if p then x else y) := by
  split
  · exact hx
  · exact hy

theorem foldlM {f : γ → β → Except Error γ} (h : ∀ c b, FailsOnly sort (f c b)) (bs : List β) (c : γ) :
    FailsOnly sort (bs.foldlM f c) := by
  induction bs generalizing c with
  | nil => exact ok c
  | cons b bs ih => exact (h c b).bind ih

end FailsOnly

/-- Computations whose errors are about values. -/
def FailsInValue (x : Except Error β) : Prop := FailsOnly (·.kind = .value) x

section Reading

namespace Equation

theorem readOutput_fails (position : Nat) (chars : List Char) :
    FailsInValue (readOutput position chars) := by
  fun_induction readOutput position chars with
  | case1 => exact .ok _
  | case2 | case3 | case4 => exact .error rfl
  | case5 _ _ _ _ _ _ _ ih => exact ih
  | case6 _ _ _ _ _ _ _ _ ih => exact ih.map
  | case7 => exact .error rfl

theorem readGroups_fails (position : Nat) (chars : List Char) :
    FailsInValue (readGroups position chars) := by
  fun_induction readGroups position chars with
  | case1 => exact .ok _
  | case2 => exact (readOutput_fails _ _).bind fun _ => .ok _
  | case3 | case4 => exact .error rfl
  | case5 _ _ ih => exact ih.bind fun _ => .ok _
  | case6 _ _ _ _ _ _ _ _ ih => exact ih
  | case7 _ _ _ _ _ _ _ _ _ ih => exact ih.bind fun _ => .ok _
  | case8 => exact .error rfl

theorem ofText_fails (text : String) (operands : Nat) : FailsInValue (ofText text operands) :=
  .ite (.error rfl) (.ite (.error rfl)
    ((readGroups_fails _ _).bind fun _ => .ite (.ok _) (.error rfl)))

end Equation

end Reading

section Fitting

theorem SizeTable.bind_fails (table : SizeTable) (c : Label) (size : Nat) :
    FailsInValue (table.bind c size) := by
  rw [bind]
  split
  · exact .ok _
  · exact .ite (.ok _) (.error rfl)

namespace Equation

theorem bindAxes_fails (table : SizeTable) (labels : Labels) (shape : List Nat) :
    FailsInValue (bindAxes table labels shape) := by
  fun_induction bindAxes table labels shape with
  | case1 table c labels size shape ih => exact (table.bind_fails c size).bind ih
  | case2 => exact .ok _

theorem bindOperands_fails (table : SizeTable) (operand : Nat) (inputs : List Labels)
    (shapes : List (List Nat)) : FailsInValue (bindOperands table operand inputs shapes) := by
  fun_induction bindOperands table operand inputs shapes with
  | case1 table operand labels inputs shape shapes ih =>
    have rank : FailsInValue (requireRank operand labels shape) :=
      .ite (.error rfl) (.ite (.error rfl) (.ok _))
    exact rank.bind fun _ => (bindAxes_fails table labels shape).bind ih
  | case2 => exact .ok _

theorem requireOutput_fails (equation : Equation) (seen output : Labels) :
    FailsInValue (equation.requireOutput seen output) := by
  induction output generalizing seen with
  | nil => exact .ok _
  | cons c output ih => exact .ite (.error rfl) (.ite (.error rfl) (ih _))

theorem fit_fails (equation : Equation) (shapes : List (List Nat)) :
    FailsInValue (equation.fit shapes) := by
  rw [fit]
  refine .ite (.error rfl) ?_
  refine (bindOperands_fails _ _ _ _).bind fun sizes => ?_
  split
  · exact (requireOutput_fails _ _ _).bind fun _ => .ok _
  · exact .ok _

end Equation

/-- Planning goes through once a text was read and fitted. -/
theorem planText_fails (text : String) (shapes : List (List Nat)) (settings : Settings) :
    FailsInValue (planText text shapes settings) := by
  intro e failed
  obtain unread | ⟨equation, parse, failed⟩ := bind_eq_error_iff.1 failed
  · exact Equation.ofText_fails _ _ e unread
  · obtain unfit | ⟨sized, fit, failed⟩ := bind_eq_error_iff.1 failed
    · exact equation.fit_fails _ e unfit
    · obtain ⟨plan, planned, -⟩ := Equation.exists_phases parse fit settings
      cases failed.symm.trans planned

end Fitting

section Running

variable {backend : Backend τ α} {plan : Plan}

/-- Computations whose errors are about values, those of the primitives apart. -/
def Backend.FailsInValue (backend : Backend τ α) (x : Except Error β) : Prop :=
  FailsOnly (fun e => e.kind = .value ∨ backend.Raises e) x

theorem FailsInValue.apart {x : Except Error β} (hx : FailsInValue x) : backend.FailsInValue x :=
  hx.imp fun _ => .inl

theorem allResults_fails {results : List (Except Error τ)}
    (h : ∀ x ∈ results, FailsOnly sort x) : FailsOnly sort (allResults results) :=
  fun e failed => h _ (error_mem_of_allResults failed) e rfl

theorem Action.apply_fails (backend : Backend τ α) (action : Action) (args : List τ) :
    backend.FailsInValue (action.apply backend args) := by
  rw [Action.apply.eq_def]
  split
  · exact fun _ failed => .inr (.diagonal failed)
  · exact fun _ failed => .inr (.sumOver failed)
  · exact fun _ failed => .inr (.contract failed)
  · exact fun _ failed => .inr (.permute failed)
  · exact .error (.inl rfl)

theorem Run.read_fails (run : Run τ) (id : Nat) : FailsInValue (run.read id) := by
  rw [read]
  split
  · exact .ok _
  · exact .ok _
  · exact .error rfl
  · exact .error rfl

theorem Run.release_fails (operands : Nat) (run : Run τ) (id : Nat) :
    FailsInValue (run.release operands id) := by
  rw [release]
  split
  · exact .ite (.ite (.ok _) (.error rfl)) (.ok _)
  · exact .error rfl

theorem Run.step_fails (backend : Backend τ α) (operands : Nat) (run : Run τ) (step : Step) :
    backend.FailsInValue (run.step backend operands step) := by
  have reads : FailsInValue (allResults (step.action.inputs.map run.read)) :=
    allResults_fails (List.forall_mem_map.2 fun id _ => run.read_fails id)
  have releases : FailsInValue (step.action.inputs.foldlM (release operands) run) :=
    .foldlM (release_fails operands) _ _
  exact reads.apart.bind fun args => (step.action.apply_fails backend args).bind fun _ =>
    releases.apart.bind fun _ => .ok _

namespace Plan

theorem runSequential_fails (backend : Backend τ α) (plan : Plan) (operands : List τ) :
    backend.FailsInValue (plan.runSequential backend operands) := by
  refine (FailsOnly.foldlM (Run.step_fails backend operands.length) _ _).bind fun run => ?_
  split
  · exact .ok _
  · exact fun _ failed => .inr (.permute failed)
  · exact .error (.inl rfl)

theorem valueAt_fails (backend : Backend τ α) (plan : Plan) (operands : List τ) (depth id : Nat) :
    backend.FailsInValue (plan.valueAt backend operands depth id) := by
  induction depth generalizing id with
  | zero => exact .error (.inl rfl)
  | succ depth ih =>
    rw [valueAt]
    split
    · exact .ok _
    · split
      · exact .error (.inl rfl)
      · rename_i step _
        exact (allResults_fails (List.forall_mem_map.2 fun id _ => ih id)).bind fun args =>
          step.action.apply_fails backend args

theorem runTree_fails (backend : Backend τ α) (plan : Plan) (operands : List τ) :
    backend.FailsInValue (plan.runTree backend operands) := by
  rw [runTree]
  split
  · exact fun _ failed => .inr (.permute failed)
  · exact plan.valueAt_fails backend operands _ _

theorem requireShapes_fails (operand : Nat) (got expected : List (List Nat)) :
    FailsInValue (requireShapes operand got expected) := by
  fun_induction requireShapes operand got expected with
  | case1 _ _ _ _ ih => exact ih
  | case2 => exact .error rfl
  | case3 => exact .ok _

theorem run_fails (backend : Backend τ α) (plan : Plan) (operands : List τ) (settings : Settings) :
    backend.FailsInValue (plan.run backend operands settings) := by
  have accepts : FailsInValue (plan.requireOperands backend operands) :=
    .ite (.error rfl) (requireShapes_fails 0 _ _)
  exact accepts.apart.bind fun _ =>
    .ite (plan.runTree_fails backend operands) (plan.runSequential_fails backend operands)

end Plan

/-- An evaluation goes wrong with a value, or a primitive does. -/
theorem evaluate_fails (backend : Backend τ α) (text : String) (operands : List τ)
    (settings : Settings) : backend.FailsInValue (evaluate backend text operands settings) :=
  (planText_fails _ _ _).apart.bind fun plan => plan.run_fails backend operands settings

end Running

section Dense

variable {shape : List Nat}

theorem requirePermutation_fails (axes : List Nat) (rank : Nat) :
    FailsInValue (requirePermutation axes rank) := .ite (.ok _) (.error rfl)

namespace Tensor

theorem orFault_fails (t : Option (Tensor α)) : FailsInValue (orFault t) := by
  cases t with
  | none => exact .error rfl
  | some t => exact .ok t

theorem collapseAxis_fails (first : Nat) (targets : List (Option Nat)) (axis : Nat) :
    FailsInValue (collapseAxis shape first targets axis) := by
  rw [collapseAxis]
  split
  · exact .ite (.error rfl) (.ite (.ok _) (.ok _))
  · exact .error rfl

theorem collapseGroup_fails (targets : List (Option Nat)) (group : List Nat) :
    FailsInValue (collapseGroup shape targets group) := by
  cases group with
  | nil => exact .ok _
  | cons first rest => exact .foldlM (collapseAxis_fails first) _ _

theorem diagonal_fails (t : Tensor α) (groups : List (List Nat)) :
    FailsInValue (t.diagonal groups) :=
  (FailsOnly.foldlM collapseGroup_fails _ _).bind fun _ => orFault_fails _

theorem permute_fails (t : Tensor α) (axes : List Nat) : FailsInValue (t.permute axes) :=
  (requirePermutation_fails _ _).bind fun _ => orFault_fails _

theorem sumOver_fails [Zero α] [Add α] (t : Tensor α) (axes : List Nat) :
    FailsInValue (t.sumOver axes) := by
  rw [sumOver]
  split
  · exact .ok _
  · exact .ite (.error rfl) (orFault_fails _)

theorem requirePairs_fails (left right : List Nat) (pairs : List (Nat × Nat)) :
    FailsInValue (requirePairs left right pairs) := by
  fun_induction requirePairs left right pairs with
  | case1 => exact .ok _
  | case2 _ _ _ _ _ _ ih => exact ih
  | case3 | case4 => exact .error rfl

theorem contract_fails [Zero α] [Add α] [Mul α] (left right : Tensor α) (axes : ContractionAxes) :
    FailsInValue (left.contract right axes) := by
  refine (requirePairs_fails _ _ _).bind fun _ => (requirePermutation_fails _ _).bind fun _ =>
    (requirePermutation_fails _ _).bind fun _ => ?_
  split
  · exact .error rfl
  · have addressable (sizes : ContractionSizes) : FailsInValue sizes.requireAddressable :=
      .ite (.ok _) (.ite (.error rfl) (.error rfl))
    exact (addressable _).bind fun _ => orFault_fails _

/-- The primitives on dense tensors complain about values only. -/
theorem kind_of_raises [Zero α] [Add α] [Mul α] {e : Error} (raised : (backend α).Raises e) :
    e.kind = .value := by
  cases raised with
  | diagonal failed => exact diagonal_fails _ _ e failed
  | permute failed => exact permute_fails _ _ e failed
  | sumOver failed => exact sumOver_fails _ _ e failed
  | contract failed => exact contract_fails _ _ _ e failed

end Tensor

end Dense

end Einsum
