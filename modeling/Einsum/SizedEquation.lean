import Einsum.Equation
import Einsum.SizeTable

/-! Equations fitted to operand shapes.
`Equation.fit` looks at the number of operands, then at each operand's rank and axes from
left to right, then at the output, and reports the first violation. -/

namespace Einsum

structure SizedEquation where
  equation : Equation
  shapes : List (List Nat)
  sizes : SizeTable
  output : Labels
deriving DecidableEq, Repr

def elements (shape : List Nat) : Estimate := Estimate.product (shape.map Estimate.ofNat)

namespace Equation

def requireRank (operand : Nat) (labels : Labels) (shape : List Nat) : Except Error Unit :=
  if shape.length < labels.length then .error (.tooManyLabels operand labels shape.length)
  else if labels.length < shape.length then .error (.tooFewLabels operand labels shape.length)
  else .ok ()

def bindAxes (table : SizeTable) : Labels → List Nat → Except Error SizeTable
  | c :: labels, size :: shape => do bindAxes (← table.bind c size) labels shape
  | _, _ => .ok table

/-- Binds operand after operand; `operand` is the number of the first one. -/
def bindOperands (table : SizeTable) (operand : Nat) :
    List Labels → List (List Nat) → Except Error SizeTable
  | labels :: inputs, shape :: shapes => do
    requireRank operand labels shape
    bindOperands (← bindAxes table labels shape) (operand + 1) inputs shapes
  | _, _ => .ok table

/-- Each output label is a label of some operand and is new; `seen` holds those before it. -/
def requireOutput (equation : Equation) (seen : Labels) : Labels → Except Error Unit
  | [] => .ok ()
  | c :: rest =>
    if equation.count c = 0 then .error (.outputNotInInputs c)
    else if seen.contains c then .error (.outputRepeated c)
    else requireOutput equation (c :: seen) rest

def fit (equation : Equation) (shapes : List (List Nat)) : Except Error SizedEquation := do
  if shapes.length ≠ equation.inputs.length then
    throw (.operandCount equation.inputs.length shapes.length)
  let sizes ← bindOperands .empty 0 equation.inputs shapes
  if let some output := equation.output then
    equation.requireOutput [] output
  return ⟨equation, shapes, sizes, equation.outputLabels⟩

end Equation

namespace SizedEquation

def outputShape (sized : SizedEquation) : List Nat := sized.sizes.shape sized.output

/-- Sizes of the labels that the output lacks, by ascending label. -/
def summedShape (sized : SizedEquation) : List Nat :=
  (sized.equation.labelsOutside sized.output).filterMap sized.sizes.get?

/-- Operations of a single loop nest: a multiplication and an addition for each index. -/
def flops (sized : SizedEquation) : Estimate :=
  elements sized.outputShape * elements sized.summedShape * 2

def memory (sized : SizedEquation) : Estimate :=
  (sized.shapes.map elements).foldl (· + ·) (elements sized.outputShape)

end SizedEquation

end Einsum
