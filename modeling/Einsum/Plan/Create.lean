import Einsum.Plan
import Einsum.SizedEquation

/-! Plans for sized equations.
First every operand loses its repeated labels, then each its private ones: those that
neither the output nor another operand has. The network of what is left is contracted along
a path. At last what the output lacks is summed and the axes are put in order; an operand
is never itself the value. -/

namespace Einsum

structure Source where
  id : Nat
  labels : Labels
deriving DecidableEq, Repr

namespace Source

/-- Replaces each source that `replace` has an action for; `next` is the first free number. -/
def replaceEach (replace : Source → Option (Action × Labels)) (next : Nat) :
    List Source → List Step × List Source
  | [] => ([], [])
  | source :: rest =>
    match replace source with
    | none =>
      let (steps, sources) := replaceEach replace next rest
      (steps, source :: sources)
    | some (action, labels) =>
      let (steps, sources) := replaceEach replace (next + 1) rest
      (⟨action, labels, next⟩ :: steps, ⟨next, labels⟩ :: sources)

/-- Leaves each label its first axis. -/
def collapse (source : Source) : Option (Action × Labels) :=
  match source.labels.diagonals with
  | [] => none
  | groups => some (.diagonalize source.id groups, Labels.distinct source.labels)

def sumOut (source : Source) (summed : Labels) : Option (Action × Labels) :=
  if summed.isEmpty then none
  else
    let axes := source.labels.zipIdx.filterMap fun (c, axis) =>
      if summed.contains c then some axis else none
    let kept := source.labels.filter fun c => !summed.contains c
    some (.reduceSum source.id axes summed, kept)

/-- The labels that `output` lacks and no other of the sources has. -/
def privateLabels (sources : List Source) (output : Labels) (source : Source) : Labels :=
  source.labels.filter fun c =>
    !output.contains c && sources.countP (·.labels.contains c) == 1

/-- Puts the axes in the order of `output`, as a new tensor even when the order is right. -/
def arrange (operands : Nat) (output : Labels) (source : Source) : Option (Action × Labels) :=
  let axes := output.filterMap fun c => source.labels.idxOf? c
  if axes = List.range axes.length ∧ operands ≤ source.id then none
  else some (.permute source.id axes, output)

/-- The steps of a path whose terms are the sources; gives all tensors at hand then. -/
def follow (next : Nat) (sources : List Source) :
    List Contraction → Except Error (List Step × List Source)
  | [] => .ok ([], sources)
  | pair :: path =>
    match sources[pair.left]?, sources[pair.right]? with
    | some left, some right => do
      let axes := ContractionAxes.ofPairing left.labels right.labels pair.labels
      let action := .contract left.id right.id pair.labels axes pair.flops
      let made : Source := ⟨next, pair.result⟩
      let (steps, sources) ← follow (next + 1) (sources ++ [made]) path
      return (⟨action, pair.result, next⟩ :: steps, sources)
    | none, _ => .error (.fault (.missingTensor pair.left))
    | _, none => .error (.fault (.missingTensor pair.right))

end Source

namespace SizedEquation

def network (sized : SizedEquation) (sources : List Source) : Network :=
  ⟨sources.map (·.labels), sized.sizes, sized.output⟩

/-- The steps that each operand needs for itself, and what is left of the operands. -/
def prepare (sized : SizedEquation) : List Step × List Source :=
  let inputs := sized.equation.inputs
  let operands := inputs.zipIdx.map fun (labels, id) => (⟨id, labels⟩ : Source)
  let (diagonals, sources) := Source.replaceEach Source.collapse inputs.length operands
  let sumPrivate := fun source => source.sumOut (source.privateLabels sources sized.output)
  let (sums, sources) := Source.replaceEach sumPrivate (inputs.length + diagonals.length) sources
  (diagonals ++ sums, sources)

/-- The steps from the last tensor at hand to the value. -/
def finish (sized : SizedEquation) (next : Nat) (last : Option Source) : List Step :=
  let sumDangling := fun source : Source =>
    source.sumOut (source.labels.filter fun c => !sized.output.contains c)
  let (sums, value) := Source.replaceEach sumDangling next last.toList
  let arrange := Source.arrange sized.equation.inputs.length sized.output
  let (orders, _) := Source.replaceEach arrange (next + sums.length) value
  sums ++ orders

def plan (sized : SizedEquation) (strategy : Strategy) (model : CostModel) : Except Error Plan := do
  let inputs := sized.equation.inputs
  let (first, sources) := sized.prepare
  let next := inputs.length + first.length
  let path ← (sized.network sources).path model strategy
  let (contractions, sources) ← Source.follow next sources path.steps
  return {
    steps := first ++ contractions ++ sized.finish (next + contractions.length) sources.getLast?
    inputs := inputs
    inputShapes := sized.shapes
    output := sized.output
    outputShape := sized.outputShape
    strategy := strategy.forTerms inputs.length
    flops := path.flops }

end SizedEquation

end Einsum
