import Einsum.Proofs.Violations

/-! Which equations fit which shapes, and what a sized equation says of them.
The conditions speak of all occurrences of a label at once and of no table. What is said of
a sized equation leaves nothing open: there is one that it is true of. -/

namespace Einsum

namespace SizeTable

/-- The bound labels in the order of their binding. -/
def keys (table : SizeTable) : Labels := table.entries.map (·.1)

theorem get?_eq_none_iff {table : SizeTable} {c : Label} : table.get? c = none ↔ c ∉ table.keys := by
  rw [get?, List.lookup_eq_none_iff, keys, List.mem_map]
  constructor
  · rintro h ⟨pair, hm, rfl⟩
    simpa using h pair hm
  · intro h pair hm
    exact bne_iff_ne.2 fun same => h ⟨pair, hm, same.symm⟩

theorem keys_bind {table table' : SizeTable} {seen : Labels} {c : Label} {size : Nat}
    (keys : table.keys = Labels.distinct seen) (h : table.bind c size = .ok table') :
    table'.keys = Labels.distinct (seen ++ [c]) := by
  have bound : c ∈ seen ↔ table.get? c ≠ none := by
    rw [ne_eq, get?_eq_none_iff, not_not, keys, Labels.mem_distinct]
  rw [Labels.distinct, eraseDups_append_singleton]
  cases hc : table.get? c with
  | none =>
    rw [bind_of_get?_eq_none hc] at h
    obtain rfl := Except.ok.inj h
    rw [if_neg fun hm => bound.1 hm hc, ← Labels.distinct, ← keys]
    simp [SizeTable.keys]
  | some expected =>
    rw [bind_of_get?_eq_some hc] at h
    split at h
    · obtain rfl := Except.ok.inj h
      rw [if_pos (bound.2 (by simp [hc])), ← Labels.distinct, keys]
    · cases h

/-- A table is told by its keys, each of them once, and their sizes. -/
theorem eq_of_keys_eq {table table' : SizeTable} (keys : table.keys = table'.keys)
    (nodup : table.keys.Nodup) (sizes : ∀ c ∈ table.keys, table.get? c = table'.get? c) :
    table = table' := by
  obtain ⟨entries⟩ := table
  obtain ⟨entries'⟩ := table'
  induction entries generalizing entries' with
  | nil =>
    have empty : entries' = [] := List.map_eq_nil_iff.1 (Eq.symm keys)
    rw [empty]
  | cons entry entries ih =>
    cases entries' with
    | nil => cases keys
    | cons entry' entries' =>
      obtain ⟨c, size⟩ := entry
      obtain ⟨c', size'⟩ := entry'
      obtain ⟨rfl, rest⟩ := List.cons.inj keys
      obtain ⟨new, nodup⟩ := List.nodup_cons.1 nodup
      -- the first key is none of the others, so looking for those skips its entry
      have head : size = size' := by
        simpa [get?] using sizes c List.mem_cons_self
      have tail := ih nodup entries' rest fun d hd => by
        have other : (d == c) = false := beq_eq_false_iff_ne.2 fun same => new (same ▸ hd)
        simpa [get?, List.lookup_cons, other] using sizes d (List.mem_cons_of_mem c hd)
      rw [head, SizeTable.mk.inj tail]

end SizeTable

namespace Equation

theorem keys_bindAxes {table table' : SizeTable} {seen labels : Labels} {shape : List Nat}
    (length : labels.length = shape.length) (keys : table.keys = Labels.distinct seen)
    (h : bindAxes table labels shape = .ok table') :
    table'.keys = Labels.distinct (seen ++ labels) := by
  induction labels generalizing shape table seen with
  | nil =>
    obtain rfl := List.length_eq_zero_iff.1 length.symm
    obtain rfl := Except.ok.inj h
    rw [keys, List.append_nil]
  | cons c labels ih =>
    cases shape with
    | nil => cases length
    | cons size shape =>
      obtain ⟨bound, hb, h⟩ := bind_eq_ok_iff.1 h
      rw [ih (Nat.succ.inj length) (SizeTable.keys_bind keys hb) h, List.append_assoc]
      rfl

theorem keys_bindOperands {table table' : SizeTable} {seen : Labels} {operand : Nat}
    {inputs : List Labels} {shapes : List (List Nat)} (length : inputs.length = shapes.length)
    (keys : table.keys = Labels.distinct seen)
    (h : bindOperands table operand inputs shapes = .ok table') :
    table'.keys = Labels.distinct (seen ++ inputs.flatten) := by
  induction inputs generalizing shapes table operand seen with
  | nil =>
    obtain rfl := List.length_eq_zero_iff.1 length.symm
    obtain rfl := Except.ok.inj h
    rw [keys, List.flatten_nil, List.append_nil]
  | cons labels inputs ih =>
    cases shapes with
    | nil => cases length
    | cons shape shapes =>
      obtain ⟨_, rank, h⟩ := bind_eq_ok_iff.1 h
      obtain ⟨bound, hb, h⟩ := bind_eq_ok_iff.1 h
      have bound := keys_bindAxes (length_of_requireRank rank) keys hb
      rw [ih (Nat.succ.inj length) bound h, List.flatten_cons, List.append_assoc]

theorem mem_places {equation : Equation} {c : Label} {place : Nat × Nat} :
    place ∈ equation.places c ↔
      ∃ labels, equation.inputs[place.1]? = some labels ∧ labels[place.2]? = some c := by
  obtain ⟨operand, axis⟩ := place
  simp only [places, List.mem_flatMap, List.mem_map]
  constructor
  · rintro ⟨⟨labels, k⟩, hm, a, ha, same⟩
    obtain ⟨rfl, rfl⟩ := Prod.mk.inj same
    exact ⟨labels, List.mk_mem_zipIdx_iff_getElem?.1 hm, Labels.mem_axesOf.1 ha⟩
  · rintro ⟨labels, ho, ha⟩
    exact ⟨(labels, operand), List.mk_mem_zipIdx_iff_getElem?.2 ho, axis, Labels.mem_axesOf.2 ha, rfl⟩

/-- The size of an axis of an operand. -/
def sizeAt? (shapes : List (List Nat)) (place : Nat × Nat) : Option Nat := do
  let shape ← shapes[place.1]?
  shape[place.2]?

theorem mem_sizePairs {equation : Equation} {shapes : List (List Nat)} {c : Label} {size : Nat} :
    (c, size) ∈ sizePairs equation.inputs shapes ↔
      ∃ place ∈ equation.places c, sizeAt? shapes place = some size := by
  simp only [sizePairs, List.mem_flatMap, sizeAt?]
  constructor
  · rintro ⟨⟨labels, shape⟩, operand, axis⟩
    obtain ⟨i, hi⟩ := List.mem_iff_getElem?.1 operand
    obtain ⟨k, hk⟩ := List.mem_iff_getElem?.1 axis
    obtain ⟨labelsAt, shapeAt⟩ := List.getElem?_zip_eq_some.1 hi
    obtain ⟨labelAt, sizeAt⟩ := List.getElem?_zip_eq_some.1 hk
    refine ⟨(i, k), mem_places.2 ⟨labels, labelsAt, labelAt⟩, ?_⟩
    rw [shapeAt]
    exact sizeAt
  · rintro ⟨⟨i, k⟩, place, h⟩
    obtain ⟨labels, labelsAt, labelAt⟩ := mem_places.1 place
    obtain ⟨shape, shapeAt, sizeAt⟩ := Option.bind_eq_some_iff.1 h
    exact ⟨(labels, shape), List.mem_of_getElem? (List.getElem?_zip_eq_some.2 ⟨labelsAt, shapeAt⟩),
      List.mem_of_getElem? (List.getElem?_zip_eq_some.2 ⟨labelAt, sizeAt⟩)⟩

/-- As many shapes as operands, of the ranks of their labels, with one size for all axes of a
label; the output, when it is given, names labels of the operands, each once. -/
structure Fits (equation : Equation) (shapes : List (List Nat)) : Prop where
  operands : shapes.length = equation.inputs.length
  ranks : ∀ labels shape, (labels, shape) ∈ equation.inputs.zip shapes → labels.length = shape.length
  sizes : ∀ c, ∀ place ∈ equation.places c, ∀ other ∈ equation.places c,
    sizeAt? shapes place = sizeAt? shapes other
  output : ∀ output, equation.output = some output →
    (∀ c ∈ output, ∃ labels ∈ equation.inputs, c ∈ labels) ∧ output.Nodup

/-- What is said of an equation that fits. The table names the labels of the operands in the
order in which they are seen first. -/
structure Describes (equation : Equation) (shapes : List (List Nat)) (sized : SizedEquation) : Prop where
  equation_eq : sized.equation = equation
  shapes_eq : sized.shapes = shapes
  keys : sized.sizes.keys = Labels.distinct equation.inputs.flatten
  sizes : ∀ c, ∀ place ∈ equation.places c,
    ∃ size, sized.sizes.get? c = some size ∧ sizeAt? shapes place = some size
  output : sized.output = equation.outputLabels
  outputShape : sized.outputShape.map some = sized.output.map sized.sizes.get?
  summedShape : ∃ summed : Labels, summed.Pairwise (· < ·) ∧
    (∀ c, c ∈ summed ↔ c ∈ equation.inputs.flatten ∧ c ∉ sized.output) ∧
    sized.summedShape.map some = summed.map sized.sizes.get?

variable {equation : Equation} {shapes : List (List Nat)} {sized : SizedEquation}

theorem exists_place_iff {c : Label} :
    (∃ place, place ∈ equation.places c) ↔ c ∈ equation.inputs.flatten := by
  rw [mem_flatten_iff_count_ne_zero, count, ← Nat.pos_iff_ne_zero, List.length_pos_iff_exists_mem]

theorem mem_of_lookup_eq_some {pairs : List (Label × Nat)} {c : Label} {size : Nat}
    (h : pairs.lookup c = some size) : (c, size) ∈ pairs := by
  obtain ⟨before, after, rfl, -⟩ := List.lookup_eq_some_iff.1 h
  simp

theorem Fits.rankViolations_eq_nil {labels : Labels} {shape : List Nat} {operand : Nat}
    (fits : equation.Fits shapes) (h : (labels, shape) ∈ equation.inputs.zip shapes) :
    rankViolations operand labels shape = [] := by
  have length := fits.ranks labels shape h
  rw [rankViolations, if_neg (by omega), if_neg (by omega)]

theorem Fits.sizeViolation_eq_none {pair : Label × Nat} (fits : equation.Fits shapes)
    (h : pair ∈ sizePairs equation.inputs shapes) :
    sizeViolation (equation.firstSize? shapes) pair = none := by
  obtain ⟨c, size⟩ := pair
  rw [sizeViolation]
  split
  · rename_i expected first
    obtain ⟨place, at_c, sizeAt⟩ := mem_sizePairs.1 (mem_of_lookup_eq_some first)
    obtain ⟨other, at_c', sizeAt'⟩ := mem_sizePairs.1 h
    have same := fits.sizes c place at_c other at_c'
    rw [sizeAt, sizeAt'] at same
    exact if_pos (Option.some.inj same)
  · rfl

theorem Fits.outputViolations_eq_nil (fits : equation.Fits shapes) :
    equation.outputViolations = [] := by
  rw [outputViolations]
  split
  · rfl
  · rename_i output given
    obtain ⟨inside, nodup⟩ := fits.output output given
    refine List.filterMap_eq_nil_iff.2 ?_
    rintro ⟨c, k⟩ hm
    have at_k := List.mk_mem_zipIdx_iff_getElem?.1 hm
    have present : c ∈ equation.inputs.flatten :=
      List.mem_flatten.2 (inside c (List.mem_of_getElem? at_k))
    have ahead : c ∈ output.drop k := List.mem_of_getElem? (i := 0) (by rw [List.getElem?_drop]; exact at_k)
    have new : c ∉ output.take k := fun old =>
      List.disjoint_take_drop nodup (Nat.le_refl k) old ahead
    rw [outputViolation, if_neg (not_not.2 present), if_neg new]

theorem Fits.violations_eq_nil (fits : equation.Fits shapes) : equation.violations shapes = [] := by
  rw [violations, countViolations, if_pos fits.operands, fits.outputViolations_eq_nil,
    List.append_nil, List.nil_append]
  refine List.flatMap_eq_nil_iff.2 ?_
  rintro ⟨⟨labels, shape⟩, operand⟩ hm
  have pair := List.mem_of_getElem? (List.mk_mem_zipIdx_iff_getElem?.1 hm)
  rw [operandViolations, fits.rankViolations_eq_nil pair, List.nil_append]
  exact List.filterMap_eq_nil_iff.2 fun axis ha =>
    fits.sizeViolation_eq_none (List.mem_flatMap.2 ⟨(labels, shape), pair, ha⟩)

theorem keys_of_fit (h : equation.fit shapes = .ok sized) :
    sized.sizes.keys = Labels.distinct equation.inputs.flatten := by
  rw [fit] at h
  split at h
  · cases h
  · rename_i length
    obtain ⟨sizes, hs, h⟩ := bind_eq_ok_iff.1 h
    have start : SizeTable.empty.keys = Labels.distinct [] := rfl
    have keys := keys_bindOperands (not_not.1 length).symm start hs
    cases given : equation.output with
    | none =>
      rw [given] at h
      obtain rfl := Except.ok.inj h
      exact keys
    | some output =>
      rw [given] at h
      obtain ⟨_, -, h⟩ := bind_eq_ok_iff.1 h
      obtain rfl := Except.ok.inj h
      exact keys

theorem sizeAt?_of_fitted (fitted : Fitted equation shapes sized) {c : Label} {place : Nat × Nat}
    (h : place ∈ equation.places c) : sizeAt? shapes place = some (sized.sizes.size c) := by
  obtain ⟨labels, labelsAt, labelAt⟩ := mem_places.1 h
  rw [sizeAt?, fitted.shapes_map]
  simp [labelsAt, labelAt, SizeTable.shape]

theorem fits_of_fit (h : equation.fit shapes = .ok sized) : equation.Fits shapes := by
  have fitted := fitted_of_fit h
  refine ⟨?_, fun labels shape hm => ?_, fun c place hp other ho => ?_, fun output given => ?_⟩
  · rw [fitted.length_eq, fitted.equation_eq]
  · obtain ⟨i, hi⟩ := List.mem_iff_getElem?.1 hm
    obtain ⟨labelsAt, shapeAt⟩ := List.getElem?_zip_eq_some.1 hi
    rw [fitted.shapes_map, List.getElem?_map, labelsAt] at shapeAt
    have told : sized.sizes.shape labels = shape := Option.some.inj shapeAt
    rw [← told, SizeTable.shape, List.length_map]
  · rw [sizeAt?_of_fitted fitted hp, sizeAt?_of_fitted fitted ho]
  · have same : sized.output = output := by rw [fitted.output_eq, outputLabels, given]; rfl
    rw [← same]
    exact ⟨fun c hc => mem_labels.1 (fitted.subset c hc), fitted.nodup⟩

/-- Every label of the operands is bound. -/
theorem get?_of_fit (h : equation.fit shapes = .ok sized) {c : Label} (hc : c ∈ equation.inputs.flatten) :
    sized.sizes.get? c = some (sized.sizes.size c) := by
  rw [← Labels.mem_distinct, ← keys_of_fit h] at hc
  obtain ⟨size, get⟩ := Option.ne_none_iff_exists'.1 (mt SizeTable.get?_eq_none_iff.1 (not_not.2 hc))
  rw [SizeTable.size, get]
  rfl

theorem describes_of_fit (h : equation.fit shapes = .ok sized) : equation.Describes shapes sized := by
  have fitted := fitted_of_fit h
  have member : ∀ c, c ∈ equation.labelsOutside sized.output ↔
      c ∈ equation.inputs.flatten ∧ c ∉ sized.output := fun c => by
    simp [labelsOutside, mem_labels]
  refine ⟨fitted.equation_eq, fitted.shapes_eq, keys_of_fit h, fun c place hp => ?_, fitted.output_eq,
    ?_, equation.labelsOutside sized.output, (Labels.pairwise_ascending _).filter _, member, ?_⟩
  · exact ⟨_, get?_of_fit h (exists_place_iff.1 ⟨place, hp⟩), sizeAt?_of_fitted fitted hp⟩
  · rw [SizedEquation.outputShape, SizeTable.shape, List.map_map]
    refine List.map_congr_left fun c hc => ?_
    exact (get?_of_fit h (List.mem_flatten.2 (mem_labels.1 (fitted.subset c hc)))).symm
  · rw [SizedEquation.summedShape, fitted.equation_eq, List.map_filterMap, ← List.filterMap_eq_map]
    refine List.filterMap_congr fun c hc => ?_
    rw [Function.comp_apply, get?_of_fit h ((member c).1 hc).1]
    rfl

theorem Describes.eq {other : SizedEquation} (h : equation.Describes shapes sized)
    (h' : equation.Describes shapes other) : sized = other := by
  have sizes : sized.sizes = other.sizes := by
    refine SizeTable.eq_of_keys_eq (h.keys.trans h'.keys.symm) ?_ fun c hc => ?_
    · rw [h.keys]
      exact nodup_eraseDups _
    · rw [h.keys, Labels.mem_distinct] at hc
      obtain ⟨place, hp⟩ := exists_place_iff.2 hc
      obtain ⟨size, get, sizeAt⟩ := h.sizes c place hp
      obtain ⟨size', get', sizeAt'⟩ := h'.sizes c place hp
      rw [get, get', ← sizeAt, sizeAt']
  have same := h.equation_eq.trans h'.equation_eq.symm
  have shapes_same := h.shapes_eq.trans h'.shapes_eq.symm
  have output := h.output.trans h'.output.symm
  cases sized
  cases other
  congr

theorem exists_fit_iff : (∃ sized, equation.fit shapes = .ok sized) ↔ equation.Fits shapes := by
  refine ⟨fun ⟨sized, h⟩ => fits_of_fit h, fun fits => ?_⟩
  rw [← errorOf?_eq_none_iff, errorOf?_fit, fits.violations_eq_nil]
  rfl

theorem fit_eq_ok_iff :
    equation.fit shapes = .ok sized ↔ equation.Fits shapes ∧ equation.Describes shapes sized := by
  refine ⟨fun h => ⟨fits_of_fit h, describes_of_fit h⟩, fun ⟨fits, describes⟩ => ?_⟩
  obtain ⟨made, h⟩ := exists_fit_iff.2 fits
  rw [h, (describes_of_fit h).eq describes]

/-- An equation is fitted exactly to the shapes that it fits, and is refused for the others
with the first thing that is wrong. -/
theorem fit_ok_or_first_violation (equation : Equation) (shapes : List (List Nat)) :
    ((∃ sized, equation.fit shapes = .ok sized) ↔ equation.Fits shapes) ∧
      (∀ sized, equation.fit shapes = .ok sized ↔
        equation.Fits shapes ∧ equation.Describes shapes sized) ∧
      ∀ e, equation.fit shapes = .error e ↔ (equation.violations shapes).head? = some e :=
  ⟨exists_fit_iff, fun _ => fit_eq_ok_iff, fun e => by rw [← errorOf?_eq_some_iff, errorOf?_fit]⟩

/-- Two sizes within the first operand come before the rank of the second one. -/
example : (Equation.mk [['i', 'i'], ['j']] (some ['k'])).violations [[2, 3], []] =
    [.sizeMismatch 'i' 2 3, .tooManyLabels 1 ['j'] 0, .outputNotInInputs 'k'] := by decide

end Equation

end Einsum
