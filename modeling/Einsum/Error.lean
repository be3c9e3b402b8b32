import Einsum.Labels
import Einsum.Keyword

/-! What can go wrong, by cause, with the wording of each message.
A fault is apart from the errors of a request: it says that a computation left the states
its callers promise, or would never end. -/

namespace Einsum

/-- A list of numbers as messages and plans show it: `[1, 0]`. -/
def listText (numbers : List Nat) : String :=
  "[" ++ ", ".intercalate (numbers.map toString) ++ "]"

/-- Malformed arrows, at byte offsets. -/
inductive ArrowError where
  | unclosed (position : Nat)
  | second (position : Nat)
  | unopened (position : Nat)
deriving DecidableEq, Repr

def ArrowError.message : ArrowError → String
  | .unclosed position => s!"'-' at position {position} must be followed by '>'"
  | .second position => s!"second '->' at position {position}"
  | .unopened position => s!"'>' at position {position} must be preceded by '-'"

inductive KeywordError where
  | unknownStrategy (value : Keyword.Value)
  | notStrategy (value : Keyword.Value)
  | notBool (value : Keyword.Value)
deriving DecidableEq, Repr

def KeywordError.message : KeywordError → String
  | .unknownStrategy value =>
    "unknown strategy " ++ value.shown ++
      "; expected one of 'left_to_right', 'greedy', 'optimal', 'auto'"
  | .notStrategy value => "expected a bool or a strategy name, got " ++ value.shown
  | .notBool value => "expected a bool, got " ++ value.shown

/-- Primitives refused by the tensors at hand, and plans that read what is not there. -/
inductive BackendError where
  | diagonalAxis (axis rank : Nat)
  | diagonalSizes (first axis firstSize size : Nat)
  | reductionAxis (axis rank : Nat)
  | unpairable (left right : Nat) (leftShape rightShape : List Nat)
  | notPermutation (axes : List Nat) (rank : Nat)
  /-- A contraction whose result has no addressable shape. -/
  | oversizedResult
  | unknownTensor (id : Nat)
  | consumedTensor (id : Nat)
  | missingResult (id : Nat)
  | missingInput (action : String) (input : Nat)
deriving DecidableEq, Repr

def BackendError.message : BackendError → String
  | .diagonalAxis axis rank => s!"diagonal axis {axis} out of range for rank {rank}"
  | .diagonalSizes first axis firstSize size =>
    s!"diagonal axes {first} and {axis} differ in size ({firstSize} vs {size})"
  | .reductionAxis axis rank => s!"reduction axis {axis} out of range for rank {rank}"
  | .unpairable left right leftShape rightShape =>
    s!"cannot pair lhs axis {left} with rhs axis {right} (shapes " ++
      listText leftShape ++ " and " ++ listText rightShape ++ ")"
  | .notPermutation axes rank => listText axes ++ s!" is not a permutation of {rank} axes"
  | .oversizedResult =>
    "contraction reshape failed: ShapeError/IncompatibleShape: incompatible shapes"
  | .unknownTensor id => s!"tensor t{id} does not exist"
  | .consumedTensor id => s!"tensor t{id} was read after being consumed"
  | .missingResult id => s!"plan result t{id} was never produced"
  | .missingInput action input => s!"{action} step is missing input {input}"

/-- States that no caller who keeps the promises of the library reaches. -/
inductive Fault where
  /-- The labels or the value of a tensor that does not exist or was consumed. -/
  | missingTensor (id : Nat)
  | unreadableEntry
  | oversizedProduct
  /-- One more read of a tensor than was counted beforehand. -/
  | uncountedRead (id : Nat)
  | endless
deriving DecidableEq, Repr

def Fault.message : Fault → String
  | .missingTensor id => s!"tensor t{id} is not at hand"
  | .unreadableEntry => "an entry outside its tensor was read"
  | .oversizedProduct => "a matrix product is too large to address"
  | .uncountedRead id => s!"tensor t{id} was read more often than counted"
  | .endless => "a tensor is computed from itself"

inductive Error where
  | noOperands
  | emptySubscripts
  | subscriptsNotText (found : String)
  | operandNotTensor (position : Nat) (found : String)
  | unknownKeyword (name : String)
  | keyword (name : String) (problem : KeywordError)
  | operandCount (groups operands : Nat)
  | strayCharacter (c : Char) (position : Nat)
  | arrow (problem : ArrowError)
  | tooManyLabels (operand : Nat) (labels : Labels) (rank : Nat)
  | tooFewLabels (operand : Nat) (labels : Labels) (rank : Nat)
  | outputNotInInputs (label : Label)
  | outputRepeated (label : Label)
  | sizeMismatch (label : Label) (expected got : Nat)
  | planShape (operand : Nat) (expected got : List Nat)
  | backend (problem : BackendError)
  | fault (problem : Fault)
deriving DecidableEq, Repr

/-- Whether a request had arguments of the wrong kind or arguments that do not fit. -/
inductive Error.Kind where
  | type
  | value
deriving DecidableEq, Repr

namespace Error

def kind : Error → Kind
  | .subscriptsNotText _ | .operandNotTensor _ _ | .unknownKeyword _ => .type
  | _ => .value

def message : Error → String
  | .noOperands => "at least one operand is required"
  | .emptySubscripts => "empty subscript string not allowed"
  | .subscriptsNotText found => s!"subscripts must be a string, got {found}"
  | .operandNotTensor position found => s!"operand {position} must be an array, got {found}"
  | .unknownKeyword name => s!"einsum() got an unexpected keyword argument '{name}'"
  | .keyword name problem => s!"invalid value for option '{name}': " ++ problem.message
  | .operandCount groups operands =>
    s!"subscript has {groups} operand group(s) but {operands} operand(s) were supplied"
  | .strayCharacter c position => s!"invalid subscript character '{c}' at position {position}"
  | .arrow problem => "invalid '->' in subscript: " ++ problem.message
  | .tooManyLabels operand labels rank =>
    "too many subscripts '" ++ labels.text ++
      s!"' for operand {operand}: {labels.length} labels, {rank} dimensions"
  | .tooFewLabels operand labels rank =>
    s!"operand {operand} has {rank} dimensions but subscript '" ++ labels.text ++
      s!"' names only {labels.length}; broadcasting to new dimensions must be requested explicitly"
  | .outputNotInInputs label => s!"output subscript '{label}' does not appear in any input"
  | .outputRepeated label => s!"output subscript '{label}' appears more than once"
  | .sizeMismatch label expected got =>
    s!"dimension mismatch for subscript '{label}': expected {expected}, got {got}"
  | .planShape operand expected got =>
    s!"operand {operand} has shape " ++ listText got ++ " but the plan was built for " ++
      listText expected
  | .backend problem => "backend error: " ++ problem.message
  | .fault problem => "fault: " ++ problem.message

end Error

theorem bind_eq_ok_iff {β γ : Type} {x : Except Error β} {f : β → Except Error γ} {r : γ} :
    x >>= f = .ok r ↔ ∃ b, x = .ok b ∧ f b = .ok r := by
  cases x <;> simp [bind, Except.bind]

end Einsum
