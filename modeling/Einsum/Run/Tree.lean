import Einsum.Run.Sequential

/-! Running a plan as a tree, from the value back to the operands.
A tensor is computed each time it is read, and both sides of a contraction are computed
before either is looked at. A walk deeper than the plan has steps meets some tensor twice,
so its tensor is computed from itself. -/

namespace Einsum

variable {τ α : Type}

/-- The tensor with number `id`, by a walk of at most `depth` tensors. -/
def Plan.valueAt (backend : Backend τ α) (plan : Plan) (operands : List τ) :
    (depth id : Nat) → Except Error τ
  | 0, _ => .error (.fault .endless)
  | depth + 1, id =>
    match operands[id]? with
    | some t => .ok t
    | none =>
      match plan.stepFor? id with
      | none => .error (.backend (.unknownTensor id))
      | some step => do
        let args ← allResults (step.action.inputs.map (plan.valueAt backend operands depth))
        step.action.apply backend args

def Plan.runTree (backend : Backend τ α) (plan : Plan) (operands : List τ) : Except Error τ :=
  match operands[plan.result]? with
  | some t => backend.copy t
  | none => plan.valueAt backend operands (plan.steps.length + 1) plan.result

end Einsum
