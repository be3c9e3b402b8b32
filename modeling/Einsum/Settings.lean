import Einsum.Cost
import Einsum.Strategy

/-! Settings of an evaluation: they change how a value is computed, not the value. -/

namespace Einsum

structure Settings where
  strategy : Strategy
  costModel : CostModel
  /-- Whether contractions may run as a tree. -/
  parallel : Bool
deriving DecidableEq, Repr

namespace Settings

def default : Settings := ⟨.auto, .cpu, false⟩

def fast : Settings := { default with strategy := .greedy, parallel := true }

def safe : Settings := { default with strategy := .optimal }

end Settings

end Einsum
