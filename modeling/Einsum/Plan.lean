import Einsum.ContractionAxes
import Einsum.Error
import Einsum.Estimate
import Einsum.Strategy

/-! Evaluation plans.
The operands are tensors `0` to `n - 1`. Each step reads tensors and names the one that it
defines; in a plan made here step `k` defines tensor `n + k`. The value is the tensor of
the last step. -/

namespace Einsum

/-- What a step does to the tensors it reads. -/
inductive Action where
  | diagonalize (input : Nat) (groups : List AxisGroup)
  /-- Sums labels that nothing else needs. -/
  | reduceSum (input : Nat) (axes : List Nat) (summed : Labels)
  | contract (left right : Nat) (labels : Pairing) (axes : ContractionAxes) (flops : Estimate)
  | permute (input : Nat) (axes : List Nat)
deriving DecidableEq, Repr

structure Step where
  action : Action
  output : Labels
  result : Nat
deriving DecidableEq, Repr

structure Plan where
  steps : List Step
  inputs : List Labels
  inputShapes : List (List Nat)
  output : Labels
  outputShape : List Nat
  strategy : Strategy
  flops : Estimate
deriving DecidableEq, Repr

namespace Action

def name : Action → String
  | .diagonalize .. => "diagonalize"
  | .reduceSum .. => "reduce_sum"
  | .contract .. => "contract"
  | .permute .. => "permute"

def inputs : Action → List Nat
  | .diagonalize input _ | .reduceSum input _ _ | .permute input _ => [input]
  | .contract left right .. => [left, right]

def isContraction : Action → Bool
  | .contract .. => true
  | _ => false

/-- The call that a listing of the plan shows. -/
def text : Action → String
  | .diagonalize input groups =>
    let shown := groups.map fun group => ", " ++ String.singleton group.label ++ listText group.axes
    s!"diagonalize(t{input}" ++ String.join shown ++ ")"
  | .reduceSum input _ summed => s!"sum(t{input}, " ++ summed.text ++ ")"
  | .contract left right labels _ _ =>
    s!"contract(t{left}, t{right}, sum " ++ labels.summed.text ++ ")"
  | .permute input axes => s!"permute(t{input}, " ++ listText axes ++ ")"

end Action

def Step.text (step : Step) : String :=
  s!"t{step.result} = " ++ step.action.text ++ " -> " ++ step.output.text

namespace Plan

def result (plan : Plan) : Nat := (plan.steps.getLast?.map (·.result)).getD 0

/-- The step that defines a tensor, which an operand has not. -/
def stepFor? (plan : Plan) (id : Nat) : Option Step :=
  if id < plan.inputs.length then none else plan.steps[id - plan.inputs.length]?

def tensorCount (plan : Plan) : Nat := plan.inputs.length + plan.steps.length

def contractionCount (plan : Plan) : Nat := plan.steps.countP (·.action.isContraction)

/-- One line for the expression and one for each step. -/
def text (plan : Plan) : String :=
  let inputs := ",".intercalate (plan.inputs.map Labels.text)
  let header := inputs ++ "->" ++ plan.output.text ++ " (" ++ plan.strategy.name ++ ")\n"
  header ++ String.join (plan.steps.map fun step => "  " ++ step.text ++ "\n")

end Plan

end Einsum
