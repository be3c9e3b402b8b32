import Einsum.Proofs.RenamedPlans

/-! The output that is meant when none is given.
It is told by how often each label occurs in all operands together, and so by the labels of
the operands up to their order. Written out, it is always accepted, and nothing else changes:
the same shapes are refused with the same error, and the others lead to the same plan. -/

namespace Einsum

theorem length_positions {ι : Type} (p : ι → Prop) [DecidablePred p] (labels : List ι) :
    (positions p labels).length = labels.countP p := by
  induction labels with
  | nil => rfl
  | cons d labels ih =>
    rw [positions_cons, List.countP_cons]
    by_cases h : p d <;> simp [h, ih]

namespace Labels

theorem length_axesOf (labels : Labels) (c : Label) : (labels.axesOf c).length = labels.count c := by
  rw [axesOf_eq_positions, length_positions, List.count]
  exact List.countP_congr fun d _ => by simp

/-- Strictly ascending lists are told by their members. -/
theorem eq_of_ascending {labels labels' : Labels} (ascending : labels.Pairwise (· < ·))
    (ascending' : labels'.Pairwise (· < ·)) (same : ∀ c, c ∈ labels ↔ c ∈ labels') :
    labels = labels' := by
  have perm : labels.Perm labels' := (List.perm_ext_iff_of_nodup (ascending.imp Char.ne_of_lt)
    (ascending'.imp Char.ne_of_lt)).2 same
  exact perm.eq_of_pairwise (fun _ _ _ _ lt gt => absurd gt (Char.lt_asymm lt)) ascending ascending'

end Labels

namespace Equation

/-- Places are counted operand by operand, labels over all operands at once. -/
theorem count_eq (equation : Equation) (c : Label) :
    equation.count c = equation.inputs.flatten.count c := by
  rw [count, places, List.length_flatMap, List.count_flatten]
  congr 1
  calc equation.inputs.zipIdx.map (fun operand =>
        ((operand.1.axesOf c).map fun axis => (operand.2, axis)).length)
      = equation.inputs.zipIdx.map fun operand => operand.1.count c :=
        List.map_congr_left fun operand _ => by rw [List.length_map, Labels.length_axesOf]
    _ = (equation.inputs.zipIdx.map (·.1)).map (List.count c) := by
        rw [List.map_map]
        rfl
    _ = equation.inputs.map (List.count c) := by rw [List.zipIdx_map_fst]

theorem mem_inferredOutput {equation : Equation} {c : Label} :
    c ∈ equation.inferredOutput ↔ equation.count c = 1 := by
  rw [count_eq, inferredOutput, List.mem_filter, Labels.mem_ascending, beq_iff_eq]
  exact and_iff_right_of_imp fun once => List.count_pos_iff.1 (by omega)

theorem pairwise_inferredOutput (equation : Equation) :
    equation.inferredOutput.Pairwise (· < ·) :=
  (Labels.pairwise_ascending _).filter _

/-- Operands in another order, each with its labels in another order. -/
def Reorders (equation other : Equation) : Prop :=
  ∃ inputs, equation.inputs.Perm inputs ∧ List.Forall₂ List.Perm inputs other.inputs

theorem Reorders.inferredOutput_eq {equation other : Equation} (h : equation.Reorders other) :
    other.inferredOutput = equation.inferredOutput := by
  obtain ⟨inputs, operands, labels⟩ := h
  have all : equation.inputs.flatten.Perm other.inputs.flatten :=
    operands.flatten.trans (List.Perm.flatten_congr labels)
  refine Labels.eq_of_ascending other.pairwise_inferredOutput equation.pairwise_inferredOutput
    fun c => ?_
  rw [mem_inferredOutput, mem_inferredOutput, count_eq, count_eq, all.count_eq]

theorem requireOutput_eq_ok {equation : Equation} {seen output : Labels} (nodup : output.Nodup)
    (fresh : ∀ c ∈ output, c ∉ seen ∧ equation.count c ≠ 0) :
    equation.requireOutput seen output = .ok () := by
  induction output generalizing seen with
  | nil => rfl
  | cons c rest ih =>
    obtain ⟨new, nodup⟩ := List.nodup_cons.1 nodup
    obtain ⟨⟨unseen, present⟩, others⟩ := List.forall_mem_cons.1 fresh
    rw [requireOutput, if_neg present, if_neg (mt List.contains_iff_mem.1 unseen)]
    refine ih nodup fun d hd => ⟨fun hm => ?_, (others d hd).2⟩
    rcases List.mem_cons.1 hm with rfl | hm
    · exact new hd
    · exact (others d hd).1 hm

theorem requireOutput_inferredOutput (equation : Equation) :
    equation.requireOutput [] equation.inferredOutput = .ok () :=
  requireOutput_eq_ok (nodup_inferredOutput equation) fun c hc =>
    ⟨List.not_mem_nil, by rw [mem_inferredOutput.1 hc]; exact Nat.one_ne_zero⟩

/-- The same operands without an output. -/
def implicit (equation : Equation) : Equation := ⟨equation.inputs, none⟩

/-- The same operands with the inferred output. -/
def explicit (equation : Equation) : Equation := ⟨equation.inputs, some equation.inferredOutput⟩

theorem fit_explicit (equation : Equation) (shapes : List (List Nat)) :
    equation.explicit.fit shapes =
      (fun sized => { sized with equation := equation.explicit }) <$> equation.implicit.fit shapes := by
  have accepted : equation.explicit.requireOutput [] equation.inferredOutput = .ok () :=
    equation.explicit.requireOutput_inferredOutput
  have inputs : equation.explicit.inputs = equation.inputs ∧
      equation.implicit.inputs = equation.inputs := ⟨rfl, rfl⟩
  have given : equation.explicit.output = some equation.inferredOutput := rfl
  rw [fit, fit, inputs.1, inputs.2, given]
  by_cases length : shapes.length ≠ equation.inputs.length
  · rw [if_pos length, if_pos length]
    rfl
  · rw [if_neg length, if_neg length]
    cases bindOperands .empty 0 equation.inputs shapes with
    | error e => rfl
    | ok sizes =>
      simp only [bind, Except.bind, accepted]
      rfl

end Equation

section Inputs

variable {sized : SizedEquation} {equation : Equation}
  (inputs : equation.inputs = sized.equation.inputs)

include inputs

/-- A plan and the shapes come from the operands of the equation. -/
theorem SizedEquation.plan_congr (strategy : Strategy) (model : CostModel) :
    { sized with equation := equation }.plan strategy model = sized.plan strategy model := by
  obtain ⟨⟨_, _⟩, _, _, _⟩ := sized
  obtain ⟨_, _⟩ := equation
  obtain rfl := inputs
  rfl

theorem SizedEquation.summedShape_congr :
    { sized with equation := equation }.summedShape = sized.summedShape := by
  obtain ⟨⟨_, _⟩, _, _, _⟩ := sized
  obtain ⟨_, _⟩ := equation
  obtain rfl := inputs
  rfl

end Inputs

/-- Without an output those labels are kept, in ascending order, that occur once in all
operands together, whatever the order of the operands and of the labels in each. This output
is accepted when it is given, and giving it changes nothing: shapes are refused with the same
error, or else the sizes, the shapes and the plan for every strategy are the same. -/
theorem inferred_output_made_explicit (equation : Equation) :
    equation.inferredOutput.Pairwise (· < ·) ∧
    (∀ c, equation.count c = equation.inputs.flatten.count c) ∧
    (∀ c, c ∈ equation.inferredOutput ↔ equation.count c = 1) ∧
    (∀ other, equation.Reorders other → other.inferredOutput = equation.inferredOutput) ∧
    equation.explicit.requireOutput [] equation.inferredOutput = .ok () ∧
    ∀ shapes,
      (∀ e, equation.implicit.fit shapes = .error e ↔ equation.explicit.fit shapes = .error e) ∧
      ∀ sized, equation.implicit.fit shapes = .ok sized →
        ∃ sized', equation.explicit.fit shapes = .ok sized' ∧ sized'.sizes = sized.sizes ∧
          sized'.output = sized.output ∧ sized'.outputShape = sized.outputShape ∧
          sized'.summedShape = sized.summedShape ∧
          ∀ strategy model, ∃ plan, sized.plan strategy model = .ok plan ∧
            sized'.plan strategy model = .ok plan := by
  refine ⟨equation.pairwise_inferredOutput, equation.count_eq, fun c => Equation.mem_inferredOutput,
    fun other h => h.inferredOutput_eq, equation.explicit.requireOutput_inferredOutput,
    fun shapes => ⟨fun e => ?_, fun sized fit => ?_⟩⟩
  · rw [equation.fit_explicit]
    cases equation.implicit.fit shapes with
    | error other => exact Iff.rfl
    | ok sized => exact ⟨nofun, nofun⟩
  · have fitted := Equation.fitted_of_fit fit
    have inputs : equation.explicit.inputs = sized.equation.inputs := by
      rw [fitted.equation_eq]
      rfl
    have subset : ∀ c ∈ sized.output, c ∈ sized.equation.labels :=
      fitted.equation_eq ▸ fitted.subset
    have outcome := equation.fit_explicit shapes
    rw [fit] at outcome
    refine ⟨_, outcome, rfl, rfl, rfl, SizedEquation.summedShape_congr inputs, fun strategy model => ?_⟩
    obtain ⟨plan, hplan⟩ := sized.exists_plan fitted.nodup subset strategy model
    exact ⟨plan, hplan, (SizedEquation.plan_congr inputs strategy model).trans hplan⟩

/-- In `bia,bc` the label `b` occurs in two operands, and in `cb,aib` too. -/
theorem inferred_output_made_explicit_shared :
    let equation : Equation := ⟨[['b', 'i', 'a'], ['b', 'c']], none⟩
    let other : Equation := ⟨[['c', 'b'], ['a', 'i', 'b']], none⟩
    let shapes := [[2, 3, 4], [2, 5]]
    let sized : SizedEquation :=
      ⟨equation, shapes, ⟨[('b', 2), ('i', 3), ('a', 4), ('c', 5)]⟩, ['a', 'c', 'i']⟩
    equation.Reorders other ∧ other.inferredOutput = ['a', 'c', 'i'] ∧
      equation.implicit.fit shapes = .ok sized ∧
      ∃ sized', Equation.fit ⟨equation.inputs, some ['a', 'c', 'i']⟩ shapes = .ok sized' ∧
        ∃ plan, sized.plan .optimal .cpu = .ok plan ∧ sized'.plan .optimal .cpu = .ok plan := by
  intro equation other shapes sized
  obtain ⟨-, -, -, reordered, -, fits⟩ := inferred_output_made_explicit equation
  have reorders : equation.Reorders other :=
    ⟨[['b', 'c'], ['b', 'i', 'a']], by decide, .cons (by decide) (.cons (by decide) .nil)⟩
  have fit : equation.implicit.fit shapes = .ok sized := by rfl
  obtain ⟨sized', fit', -, -, -, -, plans⟩ := (fits shapes).2 sized fit
  have explicit : equation.explicit = ⟨equation.inputs, some ['a', 'c', 'i']⟩ := by decide
  exact ⟨reorders, (reordered other reorders).trans (by decide), fit, sized', explicit ▸ fit',
    plans .optimal .cpu⟩

end Einsum
