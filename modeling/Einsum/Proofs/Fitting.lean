import Einsum.Equation.Parser
import Einsum.Proofs.Meaning
import Einsum.SizedEquation

/-! What holds once an equation fits its shapes.
Every label has one size, the one that it was first seen with, and every shape is told by
the labels of its operand. The output names labels of the operands, each once. -/

namespace Einsum

namespace SizeTable

theorem lookup_singleton (c d : Label) (size : Nat) :
    [(c, size)].lookup d = if d = c then some size else none := by
  by_cases hd : d = c
  · simp [hd]
  · have hb : (d == c) = false := beq_eq_false_iff_ne.2 hd
    simp [List.lookup_cons, hd, hb]

theorem get?_bind {table table' : SizeTable} {c : Label} {size : Nat}
    (h : table.bind c size = .ok table') (d : Label) :
    table'.get? d = (table.get? d).or ([(c, size)].lookup d) := by
  cases hc : table.get? c with
  | none =>
    rw [bind_of_get?_eq_none hc] at h
    obtain rfl := Except.ok.inj h
    exact List.lookup_append
  | some expected =>
    rw [bind_of_get?_eq_some hc] at h
    split at h
    · rename_i hs
      obtain rfl := Except.ok.inj h
      rw [lookup_singleton]
      by_cases hd : d = c
      · simp [hd, hc, hs]
      · simp [hd]
    · cases h

theorem get?_bind_self {table table' : SizeTable} {c : Label} {size : Nat}
    (h : table.bind c size = .ok table') : table'.get? c = some size := by
  cases hc : table.get? c with
  | none => simp [get?_bind h, hc]
  | some expected =>
    rw [bind_of_get?_eq_some hc] at h
    split at h
    · rename_i hs
      rw [← Except.ok.inj h, hc, hs]
    · cases h

theorem eq_shape {table : SizeTable} {labels : Labels} {shape : List Nat}
    (h : labels.map table.get? = shape.map some) : shape = table.shape labels := by
  have sizes := congrArg (List.map fun size => size.getD 1) h
  simp only [List.map_map, Function.comp_def, Option.getD_some, List.map_id'] at sizes
  exact sizes.symm

end SizeTable

namespace Equation

theorem bindAxes_spec {table table' : SizeTable} {labels : Labels} {shape : List Nat}
    (length : labels.length = shape.length) (h : bindAxes table labels shape = .ok table') :
    (∀ d, table'.get? d = (table.get? d).or ((labels.zip shape).lookup d)) ∧
      labels.map table'.get? = shape.map some := by
  induction labels generalizing shape table with
  | nil =>
    obtain rfl := List.length_eq_zero_iff.1 length.symm
    obtain rfl := Except.ok.inj h
    simp
  | cons c labels ih =>
    cases shape with
    | nil => cases length
    | cons size shape =>
      obtain ⟨bound, hb, h⟩ := bind_eq_ok_iff.1 h
      obtain ⟨get, map⟩ := ih (Nat.succ.inj length) h
      have hc : table'.get? c = some size := by rw [get, SizeTable.get?_bind_self hb]; rfl
      refine ⟨fun d => ?_, by rw [List.map_cons, hc, map]; rfl⟩
      rw [get, SizeTable.get?_bind hb, Option.or_assoc, ← List.lookup_append]
      rfl

theorem length_of_requireRank {operand : Nat} {labels : Labels} {shape : List Nat} {u : Unit}
    (h : requireRank operand labels shape = .ok u) : labels.length = shape.length := by
  rw [requireRank] at h
  split at h
  · cases h
  · split at h
    · cases h
    · omega

/-- The sizes that shapes give to the labels of the operands, in order. -/
def sizePairs (inputs : List Labels) (shapes : List (List Nat)) : List (Label × Nat) :=
  (inputs.zip shapes).flatMap fun (labels, shape) => labels.zip shape

theorem bindOperands_spec {table table' : SizeTable} {operand : Nat} {inputs : List Labels}
    {shapes : List (List Nat)} (length : inputs.length = shapes.length)
    (h : bindOperands table operand inputs shapes = .ok table') :
    (∀ d, table'.get? d = (table.get? d).or ((sizePairs inputs shapes).lookup d)) ∧
      shapes = inputs.map table'.shape := by
  induction inputs generalizing shapes table operand with
  | nil =>
    obtain rfl := List.length_eq_zero_iff.1 length.symm
    obtain rfl := Except.ok.inj h
    simp [sizePairs]
  | cons labels inputs ih =>
    cases shapes with
    | nil => cases length
    | cons shape shapes =>
      obtain ⟨_, rank, h⟩ := bind_eq_ok_iff.1 h
      obtain ⟨bound, hb, h⟩ := bind_eq_ok_iff.1 h
      obtain ⟨getBound, mapBound⟩ := bindAxes_spec (length_of_requireRank rank) hb
      obtain ⟨get, map⟩ := ih (Nat.succ.inj length) h
      have kept : labels.map table'.get? = labels.map bound.get? := by
        refine List.map_congr_left fun c hc => ?_
        obtain ⟨size, -, hs⟩ := List.mem_map.1 (mapBound ▸ List.mem_map_of_mem hc)
        rw [get, ← hs]
        rfl
      refine ⟨fun d => ?_, ?_⟩
      · rw [get, getBound, Option.or_assoc, ← List.lookup_append]
        rfl
      · rw [List.map_cons, ← map, ← SizeTable.eq_shape (kept.trans mapBound)]

theorem count_ne_zero_iff {equation : Equation} {c : Label} :
    equation.count c ≠ 0 ↔ c ∈ equation.labels := by
  rw [mem_labels, count, ← Nat.pos_iff_ne_zero, List.length_pos_iff_exists_mem]
  simp only [places, List.mem_flatMap, List.mem_map]
  constructor
  · rintro ⟨_, ⟨labels, operand⟩, hm, axis, ha, -⟩
    exact ⟨labels, List.mem_of_getElem? (List.mk_mem_zipIdx_iff_getElem?.1 hm),
      List.mem_of_getElem? (Labels.mem_axesOf.1 ha)⟩
  · rintro ⟨labels, hm, hc⟩
    obtain ⟨operand, ho⟩ := List.mem_iff_getElem?.1 hm
    obtain ⟨axis, ha⟩ := List.mem_iff_getElem?.1 hc
    exact ⟨(operand, axis), (labels, operand), List.mk_mem_zipIdx_iff_getElem?.2 ho, axis,
      Labels.mem_axesOf.2 ha, rfl⟩

/-- A written equation has an operand for each tensor, and at least one. -/
theorem inputs_ne_nil {text : String} {operands : Nat} {equation : Equation}
    (h : ofText text operands = .ok equation) : equation.inputs ≠ [] := by
  rw [ofText, ofChars] at h
  split at h
  · cases h
  · split at h
    · cases h
    · obtain ⟨groups, -, h⟩ := bind_eq_ok_iff.1 h
      dsimp only at h
      split at h
      · rw [← Except.ok.inj h]
        simp
      · cases h

theorem requireOutput_spec {equation : Equation} {seen output : Labels} {u : Unit}
    (h : equation.requireOutput seen output = .ok u) :
    output.Nodup ∧ ∀ c ∈ output, c ∉ seen ∧ c ∈ equation.labels := by
  induction output generalizing seen with
  | nil => simp
  | cons c rest ih =>
    rw [requireOutput] at h
    split at h
    · cases h
    · split at h
      · cases h
      · rename_i present new
        obtain ⟨nodup, spec⟩ := ih h
        refine ⟨List.nodup_cons.2 ⟨fun hm => (spec c hm).1 (by simp), nodup⟩, ?_⟩
        refine List.forall_mem_cons.2 ⟨⟨by simpa using new, count_ne_zero_iff.1 present⟩, ?_⟩
        exact fun d hd => ⟨fun hs => (spec d hd).1 (List.mem_cons_of_mem c hs), (spec d hd).2⟩

theorem nodup_inferredOutput (equation : Equation) : equation.inferredOutput.Nodup :=
  (Labels.nodup_ascending _).filter _

theorem mem_labels_of_mem_inferredOutput {equation : Equation} {c : Label}
    (h : c ∈ equation.inferredOutput) : c ∈ equation.labels := List.mem_of_mem_filter h

structure Fitted (equation : Equation) (shapes : List (List Nat)) (sized : SizedEquation) : Prop where
  equation_eq : sized.equation = equation
  shapes_eq : sized.shapes = shapes
  output_eq : sized.output = equation.outputLabels
  shapes_map : shapes = equation.inputs.map sized.sizes.shape
  get? : ∀ c, sized.sizes.get? c = (sizePairs equation.inputs shapes).lookup c
  nodup : sized.output.Nodup
  subset : ∀ c ∈ sized.output, c ∈ equation.labels

theorem Fitted.length_eq {equation : Equation} {shapes : List (List Nat)} {sized : SizedEquation}
    (fitted : Fitted equation shapes sized) : shapes.length = sized.equation.inputs.length := by
  rw [fitted.equation_eq, fitted.shapes_map, List.length_map]

theorem fitted_of_fit {equation : Equation} {shapes : List (List Nat)} {sized : SizedEquation}
    (h : equation.fit shapes = .ok sized) : Fitted equation shapes sized := by
  rw [fit] at h
  split at h
  · cases h
  · rename_i length
    obtain ⟨sizes, hs, h⟩ := bind_eq_ok_iff.1 h
    obtain ⟨get, map⟩ := bindOperands_spec (not_not.1 length).symm hs
    have made : sized = ⟨equation, shapes, sizes, equation.outputLabels⟩ ∧
        equation.outputLabels.Nodup ∧ ∀ c ∈ equation.outputLabels, c ∈ equation.labels := by
      rw [outputLabels]
      cases ho : equation.output with
      | none =>
        rw [ho] at h
        refine ⟨(Except.ok.inj h).symm.trans ?_, nodup_inferredOutput equation, fun c hc =>
          mem_labels_of_mem_inferredOutput hc⟩
        rw [outputLabels, ho]
      | some output =>
        rw [ho] at h
        obtain ⟨_, hr, h⟩ := bind_eq_ok_iff.1 h
        obtain ⟨nodup, spec⟩ := requireOutput_spec hr
        refine ⟨(Except.ok.inj h).symm.trans ?_, nodup, fun c hc => (spec c hc).2⟩
        rw [outputLabels, ho]
    obtain ⟨rfl, nodup, subset⟩ := made
    exact ⟨rfl, rfl, rfl, map, fun c => (get c).trans (by simp [SizeTable.empty, SizeTable.get?]),
      nodup, subset⟩

end Equation

end Einsum
