import Einsum.Error
import Einsum.Pairing

/-! The tensors at hand while a network is contracted.
Terms are numbered from zero and every contraction makes the next number; a tensor that
was contracted has no labels any more and is not live. -/

namespace Einsum

structure Pool where
  /-- The labels of every tensor made so far, none once it was contracted. -/
  made : List (Option Labels)
  /-- The tensors not contracted yet, in the order of their making. -/
  live : List Nat
deriving DecidableEq, Repr

namespace Pool

def ofTerms (terms : List Labels) : Pool := ⟨terms.map some, List.range terms.length⟩

def labels (pool : Pool) (id : Nat) : Except Error Labels :=
  match pool.made[id]? with
  | some (some labels) => .ok labels
  | _ => .error (.fault (.missingTensor id))

/-- The labels that the output or a live tensor other than `a` and `b` needs, ascending. -/
def neededElsewhere (pool : Pool) (a b : Nat) (output : Labels) : Except Error Labels := do
  let others ← (pool.live.filter fun id => id != a && id != b).mapM pool.labels
  return Labels.ascending (output ++ others.flatten)

/-- How the labels of `a` and `b` fall apart on the way to `output`. -/
def pairing (pool : Pool) (a b : Nat) (output : Labels) : Except Error Pairing := do
  let kept ← pool.neededElsewhere a b output
  return .split (← pool.labels a) (← pool.labels b) fun c => kept.contains c

/-- Takes `a` and `b` out and puts a new tensor in; also gives the new tensor's number. -/
def contract (pool : Pool) (a b : Nat) (result : Labels) : Except Error (Nat × Pool) :=
  let id := pool.made.length
  if id ≤ a then .error (.fault (.missingTensor a))
  else if id ≤ b then .error (.fault (.missingTensor b))
  else
    let rest := pool.live.filter fun other => other != a && other != b
    .ok (id, ⟨((pool.made.set a none).set b none) ++ [some result], rest ++ [id]⟩)

end Pool

end Einsum
