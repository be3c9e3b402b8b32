import Einsum.Document.Plan
import Einsum.Settings

/-! Settings as documents. Settings left out have their default; unknown ones are refused. -/

namespace Einsum

def CostModel.codec : Codec CostModel where
  encode model := .record [("alpha", Estimate.codec.encode model.alpha)]
  decode document := do
    match ← document.fields? ["alpha"] with
    | [alpha] => return ⟨← Estimate.codec.decode alpha⟩
    | _ => none

def Codec.decodeOr {α : Type} (codec : Codec α) (default : α) : Option Document → Option α
  | none => some default
  | some document => codec.decode document

def Settings.codec : Codec Settings where
  encode settings :=
    .record [("strategy", Strategy.codec.encode settings.strategy),
      ("cost_model", CostModel.codec.encode settings.costModel),
      ("parallel", Codec.bool.encode settings.parallel)]
  decode document := do
    match ← document.optionalFields? ["strategy", "cost_model", "parallel"] with
    | [strategy, costModel, parallel] =>
      return ⟨← Strategy.codec.decodeOr default.strategy strategy,
        ← CostModel.codec.decodeOr default.costModel costModel,
        ← Codec.bool.decodeOr default.parallel parallel⟩
    | _ => none

end Einsum
