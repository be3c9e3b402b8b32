import Einsum.Proofs.Fitting

/-! Everything that is wrong between an equation and shapes, in the order of looking.
A size is held against the first one that its label stands beside, over all operands. An
equation is refused with the first entry of this list, and fits when the list is empty:
a table that is filled on the way knows as much as all occurrences together. -/

namespace Einsum

/-- Why there is no result, if there is none. -/
def errorOf? {β : Type} : Except Error β → Option Error
  | .ok _ => none
  | .error e => some e

section ErrorOf

variable {β γ : Type}

theorem errorOf?_eq_some_iff {x : Except Error β} {e : Error} : errorOf? x = some e ↔ x = .error e := by
  cases x <;> simp [errorOf?]

theorem errorOf?_eq_none_iff {x : Except Error β} : errorOf? x = none ↔ ∃ b, x = .ok b := by
  cases x <;> simp [errorOf?]

/-- What follows is looked at when nothing is wrong so far. -/
theorem errorOf?_bind {x : Except Error β} {f : β → Except Error γ} {later : Option Error}
    (h : ∀ b, x = .ok b → errorOf? (f b) = later) : errorOf? (x >>= f) = (errorOf? x).or later := by
  cases x with
  | ok b => exact h b rfl
  | error e => rfl

theorem head?_filterMap_cons (f : β → Option γ) (b : β) (bs : List β) :
    ((b :: bs).filterMap f).head? = (f b).or (bs.filterMap f).head? := by
  rw [List.filterMap_cons]
  cases f b <;> rfl

end ErrorOf

namespace Equation

def countViolations (equation : Equation) (shapes : List (List Nat)) : List Error :=
  if shapes.length = equation.inputs.length then []
  else [.operandCount equation.inputs.length shapes.length]

def rankViolations (operand : Nat) (labels : Labels) (shape : List Nat) : List Error :=
  if shape.length < labels.length then [.tooManyLabels operand labels shape.length]
  else if labels.length < shape.length then [.tooFewLabels operand labels shape.length]
  else []

/-- A label beside a size other than its first one. -/
def sizeViolation (first : Label → Option Nat) : Label × Nat → Option Error
  | (c, size) =>
    match first c with
    | some expected => if expected = size then none else some (.sizeMismatch c expected size)
    | none => none

/-- What is wrong with one operand, with its rank before its axes. -/
def operandViolations (first : Label → Option Nat) : (Labels × List Nat) × Nat → List Error
  | ((labels, shape), operand) =>
    rankViolations operand labels shape ++ (labels.zip shape).filterMap (sizeViolation first)

/-- An output label that no operand has, or that the output has already before place `k`. -/
def outputViolation (equation : Equation) (output : Labels) : Label × Nat → Option Error
  | (c, k) =>
    if c ∉ equation.inputs.flatten then some (.outputNotInInputs c)
    else if c ∈ output.take k then some (.outputRepeated c)
    else none

def outputViolations (equation : Equation) : List Error :=
  match equation.output with
  | none => []
  | some output => output.zipIdx.filterMap (equation.outputViolation output)

def firstSize? (equation : Equation) (shapes : List (List Nat)) (c : Label) : Option Nat :=
  (sizePairs equation.inputs shapes).lookup c

def violations (equation : Equation) (shapes : List (List Nat)) : List Error :=
  equation.countViolations shapes ++
    (equation.inputs.zip shapes).zipIdx.flatMap (operandViolations (equation.firstSize? shapes)) ++
    equation.outputViolations

theorem errorOf?_requireRank (operand : Nat) (labels : Labels) (shape : List Nat) :
    errorOf? (requireRank operand labels shape) = (rankViolations operand labels shape).head? := by
  rw [requireRank, rankViolations]
  split
  · rfl
  · split <;> rfl

/-- The first size of a label, of which some are bound and the others still ahead. -/
def knownSize? (table : SizeTable) (ahead : List (Label × Nat)) (c : Label) : Option Nat :=
  (table.get? c).or (ahead.lookup c)

theorem knownSize?_append {table table' : SizeTable} {pairs : List (Label × Nat)}
    (h : ∀ d, table'.get? d = (table.get? d).or (pairs.lookup d)) (ahead : List (Label × Nat)) :
    knownSize? table (pairs ++ ahead) = knownSize? table' ahead := by
  funext d
  rw [knownSize?, knownSize?, h, List.lookup_append, Option.or_assoc]

/-- Binding a label looks at the size that it is bound to, or else is the first to bind it. -/
theorem errorOf?_bindSize (table : SizeTable) (pair : Label × Nat) (ahead : List (Label × Nat)) :
    errorOf? (table.bind pair.1 pair.2) = sizeViolation (knownSize? table (pair :: ahead)) pair := by
  obtain ⟨c, size⟩ := pair
  cases bound : table.get? c with
  | none => simp [SizeTable.bind_of_get?_eq_none bound, sizeViolation, knownSize?, bound, errorOf?]
  | some expected =>
    rw [SizeTable.bind_of_get?_eq_some bound]
    by_cases same : expected = size <;> simp [sizeViolation, knownSize?, bound, errorOf?, same]

theorem errorOf?_bindAxes {labels : Labels} {shape : List Nat} (table : SizeTable)
    (ahead : List (Label × Nat)) (length : labels.length = shape.length) :
    errorOf? (bindAxes table labels shape) = ((labels.zip shape).filterMap
      (sizeViolation (knownSize? table (labels.zip shape ++ ahead)))).head? := by
  induction labels generalizing shape table with
  | nil => rfl
  | cons c labels ih =>
    cases shape with
    | nil => cases length
    | cons size shape =>
      rw [bindAxes, List.zip_cons_cons, List.cons_append, head?_filterMap_cons,
        ← errorOf?_bindSize table (c, size)]
      refine errorOf?_bind fun bound hb => ?_
      rw [ih bound (Nat.succ.inj length),
        ← knownSize?_append (SizeTable.get?_bind hb) (labels.zip shape ++ ahead)]
      rfl

theorem errorOf?_bindOperands {inputs : List Labels} {shapes : List (List Nat)} (table : SizeTable)
    (operand : Nat) :
    errorOf? (bindOperands table operand inputs shapes) = (((inputs.zip shapes).zipIdx operand).flatMap
      (operandViolations (knownSize? table (sizePairs inputs shapes)))).head? := by
  induction inputs generalizing shapes table operand with
  | nil => rfl
  | cons labels inputs ih =>
    cases shapes with
    | nil => rfl
    | cons shape shapes =>
      have pairs : sizePairs (labels :: inputs) (shape :: shapes) =
          labels.zip shape ++ sizePairs inputs shapes := rfl
      rw [bindOperands, List.zip_cons_cons, List.zipIdx_cons, List.flatMap_cons, operandViolations,
        List.append_assoc, List.head?_append, ← errorOf?_requireRank, pairs]
      refine errorOf?_bind fun _ rank => ?_
      have length := length_of_requireRank rank
      rw [List.head?_append, ← errorOf?_bindAxes table (sizePairs inputs shapes) length]
      refine errorOf?_bind fun bound hb => ?_
      rw [ih, knownSize?_append (bindAxes_spec length hb).1]

theorem mem_flatten_iff_count_ne_zero {equation : Equation} {c : Label} :
    c ∈ equation.inputs.flatten ↔ equation.count c ≠ 0 := by
  rw [count_ne_zero_iff, mem_labels, List.mem_flatten]

/-- What was seen of the output is what stands before the next place. -/
theorem errorOf?_requireOutput {equation : Equation} {seen before rest : Labels}
    (same : ∀ c, c ∈ seen ↔ c ∈ before) :
    errorOf? (equation.requireOutput seen rest) = ((rest.zipIdx before.length).filterMap
      (equation.outputViolation (before ++ rest))).head? := by
  induction rest generalizing seen before with
  | nil => rfl
  | cons c rest ih =>
    have place : (before ++ c :: rest).take before.length = before := List.take_left
    rw [requireOutput, List.zipIdx_cons, head?_filterMap_cons, outputViolation, place]
    by_cases absent : equation.count c = 0
    · have outside : c ∉ equation.inputs.flatten := fun h => mem_flatten_iff_count_ne_zero.1 h absent
      rw [if_pos absent, if_pos outside]
      rfl
    · have inside : ¬ c ∉ equation.inputs.flatten := not_not.2 (mem_flatten_iff_count_ne_zero.2 absent)
      rw [if_neg absent, if_neg inside]
      by_cases old : c ∈ before
      · rw [if_pos old, if_pos (List.contains_iff_mem.2 ((same c).2 old))]
        rfl
      · have later : ∀ d, d ∈ c :: seen ↔ d ∈ before ++ [c] := fun d => by
          simp [same, or_comm]
        have new : ¬ seen.contains c = true := fun h => old ((same c).1 (List.contains_iff_mem.1 h))
        rw [if_neg old, if_neg new, ih later, List.length_append, List.append_assoc]
        rfl

/-- The first thing that is found wrong is the first of all that is wrong. -/
theorem errorOf?_fit (equation : Equation) (shapes : List (List Nat)) :
    errorOf? (equation.fit shapes) = (equation.violations shapes).head? := by
  rw [fit, violations, countViolations, List.append_assoc]
  by_cases length : shapes.length = equation.inputs.length
  · rw [if_neg (not_not.2 length), if_pos length, List.nil_append, List.head?_append]
    have known : knownSize? .empty (sizePairs equation.inputs shapes) = equation.firstSize? shapes := rfl
    rw [← known, ← errorOf?_bindOperands .empty 0]
    refine errorOf?_bind fun sizes _ => ?_
    rw [outputViolations]
    cases equation.output with
    | none => rfl
    | some output =>
      have required : errorOf? (equation.requireOutput [] output) =
          (output.zipIdx.filterMap (equation.outputViolation output)).head? :=
        errorOf?_requireOutput fun _ => Iff.rfl
      rw [← required, ← Option.or_none (o := errorOf? (equation.requireOutput [] output))]
      exact errorOf?_bind fun _ _ => rfl
  · rw [if_pos length, if_neg length]
    rfl

end Equation

end Einsum
