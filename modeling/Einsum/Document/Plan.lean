import Einsum.Document
import Einsum.Plan

/-! Plans and their parts as documents.
A step is a record with one field, named for what the step does. -/

namespace Einsum

def Estimate.codec : Codec Estimate where
  encode count := Codec.nat.encode count.toNat
  decode document := (Codec.nat.decode document).map .ofNat

def Labels.codec : Codec Labels where
  encode labels := .record [("labels", Codec.char.list.encode labels)]
  decode document := do
    match ← document.fields? ["labels"] with
    | [labels] => Codec.char.list.decode labels
    | _ => none

def AxisGroup.codec : Codec AxisGroup where
  encode group :=
    .record [("label", Codec.char.encode group.label), ("axes", Codec.nat.list.encode group.axes)]
  decode document := do
    match ← document.fields? ["label", "axes"] with
    | [label, axes] => return ⟨← Codec.char.decode label, ← Codec.nat.list.decode axes⟩
    | _ => none

def Pairing.codec : Codec Pairing where
  encode pairing :=
    .record [("batch", Labels.codec.encode pairing.batch),
      ("summed", Labels.codec.encode pairing.summed),
      ("left_only", Labels.codec.encode pairing.leftOnly),
      ("right_only", Labels.codec.encode pairing.rightOnly)]
  decode document := do
    match ← document.fields? ["batch", "summed", "left_only", "right_only"] with
    | [batch, summed, leftOnly, rightOnly] =>
      return ⟨← Labels.codec.decode batch, ← Labels.codec.decode summed,
        ← Labels.codec.decode leftOnly, ← Labels.codec.decode rightOnly⟩
    | _ => none

def Codec.axisPairs : Codec (List (Nat × Nat)) := (Codec.nat.pair Codec.nat).list

def ContractionAxes.codec : Codec ContractionAxes where
  encode axes :=
    .record [("batch", Codec.axisPairs.encode axes.batch),
      ("summed", Codec.axisPairs.encode axes.summed),
      ("left_free", Codec.nat.list.encode axes.leftFree),
      ("right_free", Codec.nat.list.encode axes.rightFree)]
  decode document := do
    match ← document.fields? ["batch", "summed", "left_free", "right_free"] with
    | [batch, summed, leftFree, rightFree] =>
      return ⟨← Codec.axisPairs.decode batch, ← Codec.axisPairs.decode summed,
        ← Codec.nat.list.decode leftFree, ← Codec.nat.list.decode rightFree⟩
    | _ => none

/-- A name, also as a record whose only field has that name and no value. -/
def Strategy.codec : Codec Strategy where
  encode strategy := .text strategy.name
  decode
    | .text name => ofName? name
    | .record [(name, .null)] => ofName? name
    | _ => none

namespace Step

def fieldsOf (step : Step) : String × List (String × Document) :=
  let tail :=
    [("output", Labels.codec.encode step.output), ("result", Codec.nat.encode step.result)]
  match step.action with
  | .diagonalize input groups =>
    ("Diagonalize", ("input", Codec.nat.encode input) ::
      ("groups", AxisGroup.codec.list.encode groups) :: tail)
  | .reduceSum input axes summed =>
    ("ReduceSum", ("input", Codec.nat.encode input) :: ("axes", Codec.nat.list.encode axes) ::
      ("summed", Labels.codec.encode summed) :: tail)
  | .contract left right labels axes flops =>
    ("Contract", ("left", Codec.nat.encode left) :: ("right", Codec.nat.encode right) ::
      ("labels", Pairing.codec.encode labels) :: ("dims", ContractionAxes.codec.encode axes) ::
      ("flops", Estimate.codec.encode flops) :: tail)
  | .permute input axes =>
    ("Permute", ("input", Codec.nat.encode input) :: ("perm", Codec.nat.list.encode axes) :: tail)

def diagonalizeOf (fields : List (String × Document)) : Option Action := do
  match ← Document.named? ["input", "groups"] fields with
  | [input, groups] =>
    return .diagonalize (← Codec.nat.decode input) (← AxisGroup.codec.list.decode groups)
  | _ => none

def reduceSumOf (fields : List (String × Document)) : Option Action := do
  match ← Document.named? ["input", "axes", "summed"] fields with
  | [input, axes, summed] =>
    return .reduceSum (← Codec.nat.decode input) (← Codec.nat.list.decode axes)
      (← Labels.codec.decode summed)
  | _ => none

def contractOf (fields : List (String × Document)) : Option Action := do
  match ← Document.named? ["left", "right", "labels", "dims", "flops"] fields with
  | [left, right, labels, axes, flops] =>
    return .contract (← Codec.nat.decode left) (← Codec.nat.decode right)
      (← Pairing.codec.decode labels) (← ContractionAxes.codec.decode axes)
      (← Estimate.codec.decode flops)
  | _ => none

def permuteOf (fields : List (String × Document)) : Option Action := do
  match ← Document.named? ["input", "perm"] fields with
  | [input, axes] => return .permute (← Codec.nat.decode input) (← Codec.nat.list.decode axes)
  | _ => none

def actionOf (kind : String) (fields : List (String × Document)) : Option Action :=
  if kind = "Diagonalize" then diagonalizeOf fields
  else if kind = "ReduceSum" then reduceSumOf fields
  else if kind = "Contract" then contractOf fields
  else if kind = "Permute" then permuteOf fields
  else none

/-- The fields of a step are read by name only. -/
def codec : Codec Step where
  encode step :=
    let (kind, fields) := step.fieldsOf
    .record [(kind, .record fields)]
  decode
    | .record [(kind, .record fields)] => do
      let action ← actionOf kind fields
      match ← Document.named? ["output", "result"] fields with
      | [output, result] =>
        return ⟨action, ← Labels.codec.decode output, ← Codec.nat.decode result⟩
      | _ => none
    | _ => none

end Step

def Plan.codec : Codec Plan where
  encode plan :=
    .record [("steps", Step.codec.list.encode plan.steps),
      ("inputs", Labels.codec.list.encode plan.inputs),
      ("input_shapes", Codec.nat.list.list.encode plan.inputShapes),
      ("output", Labels.codec.encode plan.output),
      ("output_shape", Codec.nat.list.encode plan.outputShape),
      ("strategy", Strategy.codec.encode plan.strategy),
      ("total_flops", Estimate.codec.encode plan.flops)]
  decode document := do
    let names :=
      ["steps", "inputs", "input_shapes", "output", "output_shape", "strategy", "total_flops"]
    match ← document.fields? names with
    | [steps, inputs, inputShapes, output, outputShape, strategy, flops] =>
      return {
        steps := ← Step.codec.list.decode steps
        inputs := ← Labels.codec.list.decode inputs
        inputShapes := ← Codec.nat.list.list.decode inputShapes
        output := ← Labels.codec.decode output
        outputShape := ← Codec.nat.list.decode outputShape
        strategy := ← Strategy.codec.decode strategy
        flops := ← Estimate.codec.decode flops }
    | _ => none

end Einsum
