import Einsum.Backend
import Einsum.Plan

/-! Running a plan step by step.
The reads of every tensor are counted beforehand, and a tensor made by a step is dropped
after the last of them. Operands are never dropped. -/

namespace Einsum

variable {τ α : Type}

def faultOf? : Except Error τ → Option Fault
  | .error (.fault problem) => some problem
  | _ => none

/-- All values, or the first fault among the results, or else the first error. -/
def allResults (results : List (Except Error τ)) : Except Error (List τ) :=
  match results.findSome? faultOf? with
  | some problem => .error (.fault problem)
  | none => results.mapM id

def Action.apply (backend : Backend τ α) : Action → List τ → Except Error τ
  | .diagonalize _ groups, [t] => backend.diagonal t (groups.map (·.axes))
  | .reduceSum _ axes _, [t] => backend.sumOver t axes
  | .contract _ _ _ axes _, [left, right] => backend.contract left right axes
  | .permute _ axes, [t] => backend.permute t axes
  | action, args => .error (.backend (.missingInput action.name args.length))

inductive Cell (τ : Type) where
  | operand (t : τ)
  | made (t : τ)
  | consumed

structure Run (τ : Type) where
  cells : List (Cell τ)
  /-- Reads still to come, by tensor. -/
  reads : List Nat

namespace Run

def start (plan : Plan) (operands : List τ) : Run τ where
  cells := operands.map .operand
  reads :=
    let all := plan.steps.flatMap (·.action.inputs)
    (List.range plan.tensorCount).map fun id => all.count id

def read (run : Run τ) (id : Nat) : Except Error τ :=
  match run.cells[id]? with
  | some (.operand t) | some (.made t) => .ok t
  | some .consumed => .error (.backend (.consumedTensor id))
  | none => .error (.backend (.unknownTensor id))

/-- Counts one read of `id` as done, and drops what is not read again. -/
def release (operands : Nat) (run : Run τ) (id : Nat) : Except Error (Run τ) :=
  match run.reads[id]? with
  | some (left + 1) =>
    let reads := run.reads.set id left
    if left = 0 ∧ operands ≤ id then
      if id < run.cells.length then .ok ⟨run.cells.set id .consumed, reads⟩
      else .error (.fault (.missingTensor id))
    else .ok ⟨run.cells, reads⟩
  | _ => .error (.fault (.uncountedRead id))

def step (backend : Backend τ α) (operands : Nat) (run : Run τ) (step : Step) :
    Except Error (Run τ) := do
  let args ← allResults (step.action.inputs.map run.read)
  let value ← step.action.apply backend args
  let run ← step.action.inputs.foldlM (release operands) run
  return ⟨run.cells ++ [.made value], run.reads⟩

end Run

/-- The value of a plan; an operand is copied. -/
def Plan.runSequential (backend : Backend τ α) (plan : Plan) (operands : List τ) :
    Except Error τ := do
  let run ← plan.steps.foldlM (Run.step backend operands.length) (.start plan operands)
  match run.cells[plan.result]? with
  | some (.made t) => return t
  | some (.operand t) => backend.copy t
  | _ => throw (.backend (.missingResult plan.result))

end Einsum
