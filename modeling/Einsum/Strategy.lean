import Einsum.Path.Subsets

/-! Ways to order the contractions of a network. -/

namespace Einsum

inductive Strategy where
  | leftToRight
  | greedy
  | optimal
  | auto
deriving DecidableEq, Repr

namespace Strategy

def all : List Strategy := [.leftToRight, .greedy, .optimal, .auto]

def name : Strategy → String
  | .leftToRight => "left_to_right"
  | .greedy => "greedy"
  | .optimal => "optimal"
  | .auto => "auto"

def ofName? (name : String) : Option Strategy := all.find? fun strategy => strategy.name == name

/-- The largest number of terms for which `auto` tries all sets. -/
def autoLimit : Nat := 4

def forTerms (strategy : Strategy) (terms : Nat) : Strategy :=
  match strategy with
  | .auto => if terms ≤ autoLimit then .optimal else .greedy
  | .optimal => if Network.subsetLimit < terms then .greedy else .optimal
  | other => other

theorem ofName?_name (strategy : Strategy) : ofName? strategy.name = some strategy := by
  cases strategy <;> decide

end Strategy

def Network.path (network : Network) (model : CostModel) (strategy : Strategy) :
    Except Error Path :=
  match strategy.forTerms network.terms.length with
  | .leftToRight => network.leftToRight model
  | .optimal => network.best model
  | .greedy | .auto => network.cheapestFirst model

end Einsum
