import Einsum.Equation.Parser
import Einsum.Plan.Create
import Einsum.Run.Tree
import Einsum.Settings

/-! Evaluation of written expressions: read, fit to shapes, plan and run. -/

namespace Einsum

variable {τ α : Type}

def planText (text : String) (shapes : List (List Nat)) (settings : Settings) :
    Except Error Plan := do
  let equation ← Equation.ofText text shapes.length
  let sized ← equation.fit shapes
  sized.plan settings.strategy settings.costModel

namespace Plan

/-- Operands have the shapes the plan was made for; `operand` is the number of the first. -/
def requireShapes (operand : Nat) : (got expected : List (List Nat)) → Except Error Unit
  | got :: moreGot, expected :: moreExpected =>
    if got = expected then requireShapes (operand + 1) moreGot moreExpected
    else .error (.planShape operand expected got)
  | _, _ => .ok ()

def requireOperands (backend : Backend τ α) (plan : Plan) (operands : List τ) : Except Error Unit :=
  if operands.length ≠ plan.inputs.length then
    .error (.operandCount plan.inputs.length operands.length)
  else requireShapes 0 (operands.map backend.shape) plan.inputShapes

def run (backend : Backend τ α) (plan : Plan) (operands : List τ) (settings : Settings) :
    Except Error τ := do
  plan.requireOperands backend operands
  if settings.parallel && 1 < plan.contractionCount then plan.runTree backend operands
  else plan.runSequential backend operands

end Plan

def evaluate (backend : Backend τ α) (text : String) (operands : List τ) (settings : Settings) :
    Except Error τ := do
  let plan ← planText text (operands.map backend.shape) settings
  plan.run backend operands settings

end Einsum
