import Einsum.Labels

/-! Equations: the labels of every operand and, when it is given, of the output.
Without an output the labels that occur exactly once over all operands are kept, in
ascending order, and all others are summed. -/

namespace Einsum

structure Equation where
  inputs : List Labels
  output : Option Labels
deriving DecidableEq, Repr

namespace Equation

def places (equation : Equation) (c : Label) : List (Nat × Nat) :=
  equation.inputs.zipIdx.flatMap fun (labels, operand) =>
    (labels.axesOf c).map fun axis => (operand, axis)

def count (equation : Equation) (c : Label) : Nat := (equation.places c).length

/-- The operands that have a label, each once. -/
def operandsWith (equation : Equation) (c : Label) : List Nat :=
  ((equation.places c).map (·.1)).eraseDups

def labels (equation : Equation) : Labels := Labels.ascending equation.inputs.flatten

/-- The output meant when none is given. -/
def inferredOutput (equation : Equation) : Labels :=
  let all := equation.inputs.flatten
  (Labels.ascending all).filter fun c => all.count c == 1

def isImplicit (equation : Equation) : Bool := equation.output.isNone

def outputLabels (equation : Equation) : Labels := equation.output.getD equation.inferredOutput

def labelsOutside (equation : Equation) (output : Labels) : Labels :=
  equation.labels.filter fun c => !output.contains c

/-- Groups separated by commas; the arrow only where an output is given. -/
def chars (equation : Equation) : List Char :=
  [','].intercalate equation.inputs ++
    match equation.output with
    | none => []
    | some output => '-' :: '>' :: output

def text (equation : Equation) : String := String.ofList equation.chars

theorem mem_labels {equation : Equation} {c : Label} :
    c ∈ equation.labels ↔ ∃ labels ∈ equation.inputs, c ∈ labels := by
  simp [labels, Labels.mem_ascending]

end Equation

end Einsum
