import Einsum.Evaluate

/-! Loosely typed calls: a list of arguments of any kind and a list of keyword options.
The options are read first, then the kinds of the arguments are looked at, then the
expression. Plain numbers are tensors without axes. -/

namespace Einsum

variable {τ α : Type}

inductive Argument (τ α : Type) where
  | subscripts (text : String)
  | tensor (t : τ)
  | scalar (value : α)
  /-- Any other value, by the name of its type. -/
  | other (kindName : String)

def Argument.kindName : Argument τ α → String
  | .subscripts _ => "str"
  | .tensor _ => "array"
  | .scalar _ => "scalar"
  | .other kindName => kindName

namespace Settings

/-- `optimize` takes a bool or the name of a strategy, `parallel` a bool. -/
def apply (settings : Settings) (option : Keyword) : Except Error Settings :=
  if option.name = "optimize" then
    match option.value with
    | .bool false => .ok { settings with strategy := .leftToRight }
    | .bool true => .ok { settings with strategy := .greedy }
    | .text name =>
      match Strategy.ofName? name with
      | some strategy => .ok { settings with strategy }
      | none => .error (.keyword option.name (.unknownStrategy option.value))
    | .int _ => .error (.keyword option.name (.notStrategy option.value))
  else if option.name = "parallel" then
    match option.value with
    | .bool parallel => .ok { settings with parallel }
    | value => .error (.keyword option.name (.notBool value))
  else .error (.unknownKeyword option.name)

def ofKeywords (options : List Keyword) : Except Error Settings :=
  options.foldlM apply default

end Settings

/-- The tensors among the arguments; `position` is the place of the first one. -/
def operandsOf (backend : Backend τ α) (position : Nat) :
    List (Argument τ α) → Except Error (List τ)
  | [] => .ok []
  | .tensor t :: rest => (t :: ·) <$> operandsOf backend (position + 1) rest
  | .scalar value :: rest => (backend.scalar value :: ·) <$> operandsOf backend (position + 1) rest
  | argument :: _ => .error (.operandNotTensor position argument.kindName)

def invoke (backend : Backend τ α) (arguments : List (Argument τ α)) (options : List Keyword) :
    Except Error τ :=
  match arguments with
  | [] => .error .noOperands
  | first :: rest => do
    let settings ← Settings.ofKeywords options
    match first with
    | .subscripts text => evaluate backend text (← operandsOf backend 0 rest) settings
    | argument => throw (.subscriptsNotText argument.kindName)

end Einsum
