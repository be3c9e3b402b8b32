import Einsum.Proofs.Printing
import Einsum.Proofs.SingleAssignment
import Einsum.Proofs.Sizing
import Einsum.Proofs.Soundness

/-! Expressions of one operand that sum nothing.
Their plans take diagonals and permute axes only, and these actions move entries of any type
and compute none. Where an entry is found is told by the labels on the whole way and never by
axis numbers, so that what one expression moves the opposite one moves back, without anything
being said of inverse permutations. -/

namespace Einsum

/-- Whether an action moves entries and computes none. -/
def Action.rearranges : Action → Bool
  | .diagonalize .. | .permute .. => true
  | .reduceSum .. | .contract .. => false

theorem Action.rearranges_iff {action : Action} : action.rearranges = true ↔
    (∃ input groups, action = .diagonalize input groups) ∨
      ∃ input axes, action = .permute input axes := by
  cases action <;> simp [rearranges]

theorem Action.not_isContraction {action : Action} (h : action.rearranges = true) :
    ¬action.isContraction = true := by
  cases action with
  | diagonalize | permute => exact nofun
  | reduceSum | contract => cases h

section Entries

variable {α : Type} [Zero α] [Add α] [Mul α] {size : Label → Nat} {output : Labels}

/-- Under its labels every entry stays what it is. -/
theorem Action.Relabels.get?_of_apply {action : Action} {labels made : Labels}
    (relabels : action.Relabels [labels] made) (rearranges : action.rearranges = true)
    {t u : Tensor α} (shape : t.shape = labels.map size)
    (hu : action.apply (Tensor.backend α) [t] = .ok u) {i : Assignment Label}
    (hi : i.Within size made) : u.get? (made.map i) = t.get? (labels.map i) := by
  cases relabels with
  | diagonalize id labels =>
    obtain ⟨v, hv, -, entries⟩ := Tensor.diagonal_spec shape
    obtain rfl : u = v := Except.ok.inj (hu.symm.trans hv)
    exact entries i hi
  | reduceSum => cases rearranges
  | permute id nodup perm =>
    obtain ⟨v, hv, -, entries⟩ := Tensor.permute_spec shape nodup (map_idxOf_perm nodup perm)
      (names_idxOf fun c hc => perm.mem_iff.1 hc)
    obtain rfl : u = v := Except.ok.inj (hu.symm.trans hv)
    exact entries i hi

/-- A move from a single tensor reads this one and replaces it. -/
theorem Move.of_single {next : Nat} {source : Source} {sources' : List Source} {step : Step}
    (move : Move output next [source] step sources') : step.action.inputs = [source.id] ∧
      sources' = [⟨next, step.output⟩] ∧ step.action.Relabels [source.labels] step.output := by
  obtain @⟨_, old, rest, action, made, before, after, inputs, relabels, -, -⟩ := move
  have reads : action.inputs ≠ [] := by cases action <;> simp [Action.inputs]
  have all : old ++ rest = [source] := List.perm_singleton.1 before.symm
  obtain ⟨rfl, -⟩ | ⟨rfl, rfl⟩ := List.append_eq_singleton_iff.1 all
  · exact absurd inputs reads
  · exact ⟨inputs, List.perm_singleton.1 after, relabels⟩

theorem Moves.get?_of_traces {next : Nat} {source last : Source} {steps : List Step}
    (moves : Moves output next [source] steps [last])
    (rearrange : ∀ step ∈ steps, step.action.rearranges = true)
    {values values' : List (Tensor α)} (length : values.length = next)
    (held : Held size values [source]) (traces : Traces (Tensor.backend α) values steps values')
    {t u : Tensor α} (ht : values[source.id]? = some t) (hu : values'[last.id]? = some u)
    {i : Assignment Label} (hi : i.Within size source.labels) :
    u.get? (last.labels.map i) = t.get? (source.labels.map i) := by
  generalize hs : [source] = sources at moves
  generalize hl : [last] = lasts at moves
  -- after the first step the only tensor at hand is the one that it made
  induction moves generalizing values source t with
  | nil =>
    cases traces
    obtain rfl := List.singleton_inj.1 (hs.trans hl.symm)
    rw [Option.some.inj (hu.symm.trans ht)]
  | @cons next _ sources' _ step steps move moves ih =>
    subst hs
    subst length
    obtain ⟨first, later⟩ := List.forall_mem_cons.1 rearrange
    obtain ⟨inputs, rfl, relabels⟩ := move.of_single
    obtain _ | ⟨reads, apply, rest⟩ := traces
    have held' := move.held_append held reads apply
    obtain ⟨_, same, shape⟩ := held source (List.mem_singleton_self source)
    obtain rfl := Option.some.inj (ht.symm.trans same)
    obtain rfl : [t] = _ := by simpa [inputs, ht] using reads
    have within : i.Within size step.output := fun c hc =>
      hi c (by simpa using relabels.mem_read_iff.2 (.inr hc))
    have tail := ih later (by simp) held' rest List.getElem?_concat_length within rfl hl
    exact tail.trans (relabels.get?_of_apply first shape apply within)

end Entries

namespace Source

theorem follow_isContraction {next : Nat} {sources table : List Source} {path : List Contraction}
    {steps : List Step} (h : follow next sources path = .ok (steps, table)) :
    ∀ step ∈ steps, step.action.isContraction = true := by
  induction path generalizing next sources steps with
  | nil =>
    cases h
    exact fun step hm => nomatch hm
  | cons pair path ih =>
    rw [follow] at h
    split at h
    · obtain ⟨⟨rest, table'⟩, hrest, h⟩ := bind_eq_ok_iff.1 h
      cases h
      exact List.forall_mem_cons.2 ⟨rfl, ih hrest⟩
    · cases h
    · cases h

/-- Nothing is summed only to sum nothing. -/
theorem summed_of_sumOut {source : Source} {summed : Labels} {action : Action} {labels : Labels}
    (h : source.sumOut summed = some (action, labels)) : action.summed ≠ [] := by
  rw [(sumOut_spec h).1, Action.summed]
  rintro rfl
  rw [sumOut_nil] at h
  cases h

end Source

namespace SizedEquation

/-- Steps of a plan that compute anything contract or sum some label. -/
theorem rearranges_or {sized : SizedEquation} {strategy : Strategy} {model : CostModel}
    {plan : Plan} (h : sized.plan strategy model = .ok plan) : ∀ step ∈ plan.steps,
      step.action.rearranges = true ∨ step.action.isContraction = true ∨ step.action.summed ≠ [] := by
  obtain ⟨path, contractions, table, -, hfollow, steps, -⟩ := parts_of_plan h
  intro step hm
  rw [steps, prepare, finish] at hm
  simp only [List.mem_append] at hm
  rcases hm with ((hm | hm) | hm) | hm | hm
  · obtain ⟨source, -, replaced⟩ := Source.exists_replaced hm
    rw [(Source.collapse_spec replaced).1]
    exact .inl rfl
  · obtain ⟨source, -, replaced⟩ := Source.exists_replaced hm
    exact .inr (.inr (Source.summed_of_sumOut replaced))
  · exact .inr (.inl (Source.follow_isContraction hfollow step hm))
  · obtain ⟨source, -, replaced⟩ := Source.exists_replaced hm
    exact .inr (.inr (Source.summed_of_sumOut replaced))
  · obtain ⟨source, -, replaced⟩ := Source.exists_replaced hm
    rw [(Source.arrange_spec replaced).1]
    exact .inl rfl

/-- One operand is not contracted, and without labels to sum it is only rearranged. -/
theorem Phases.rearranges {sized : SizedEquation} {strategy : Strategy} {model : CostModel}
    {plan : Plan} (phases : sized.Phases plan) (h : sized.plan strategy model = .ok plan)
    (one : sized.equation.inputs.length = 1)
    (kept : ∀ c ∈ sized.equation.labels, c ∈ sized.output) :
    ∀ step ∈ plan.steps, step.action.rearranges = true := by
  intro step hm
  obtain rearranges | contraction | summed := rearranges_or h step hm
  · exact rearranges
  · have none : plan.contractionCount = 0 := by rw [phases.contractionCount_eq, one]
    exact absurd contraction (List.countP_eq_zero.1 none step hm)
  · obtain ⟨c, hc⟩ := List.exists_mem_of_ne_nil _ summed
    have count := phases.count_summed c
    rw [if_neg fun sums => sums.2 (kept c sums.1)] at count
    exact absurd (List.mem_flatMap.2 ⟨step, hm, hc⟩) (List.count_eq_zero.1 count)

end SizedEquation

namespace Equation

/-- An expression of one operand that sums nothing is planned and run, and every entry stays
under its labels. -/
theorem exists_rearranged {α : Type} [Zero α] [Add α] [Mul α] {text : String} {equation : Equation}
    {sized : SizedEquation} {x : Tensor α} (parse : ofText text 1 = .ok equation)
    (fit : equation.fit [x.shape] = .ok sized) (kept : ∀ c ∈ equation.labels, c ∈ sized.output)
    (settings : Settings) :
    ∃ labels plan value, equation.inputs = [labels] ∧
      planText text [x.shape] settings = .ok plan ∧
      (∀ step ∈ plan.steps, step.action.rearranges = true) ∧
      (∀ settings', plan.run (Tensor.backend α) [x] settings' = .ok value) ∧
      value.shape = sized.sizes.shape sized.output ∧
      ∀ i : Assignment Label, i.Within sized.sizes.size sized.output →
        value.get? (sized.output.map i) = x.get? (labels.map i) := by
  have fitted : equation.Fitted ([x].map (·.shape)) sized := fitted_of_fit fit
  obtain ⟨plan, hplan, ⟨phases⟩⟩ := exists_phases parse fit settings
  have held := fitted.held
  have one : [x].length = sized.equation.inputs.length := fitted.length_eq
  obtain ⟨labels, inputs⟩ := List.length_eq_one_iff.1 one.symm
  rw [← fitted.equation_eq] at kept
  have rearranges := phases.rearranges hplan one.symm kept
  have addressable : plan.IsAddressable := fun step hm contraction =>
    absurd contraction (Action.not_isContraction (rearranges step hm))
  obtain ⟨values, value, traces, last, result, shape, -⟩ := phases.exists_values fitted addressable
  have final : values[plan.result]? = some value := by
    rw [← last, List.getLast?_eq_getElem?, ← result, Nat.add_sub_cancel]
  obtain ⟨-, -, moves⟩ := phases.moves_to_result
  have operands : sized.operands = [⟨0, labels⟩] := by
    rw [SizedEquation.operands, inputs]
    rfl
  rw [operands] at moves held
  refine ⟨labels, plan, value, fitted.equation_eq ▸ inputs,
    bind_eq_ok_iff.2 ⟨equation, parse, bind_eq_ok_iff.2 ⟨sized, fit, hplan⟩⟩, rearranges,
    fun settings' => phases.run_eq_ok fitted traces last result settings',
    shape.trans phases.outputShape, fun i hi => ?_⟩
  have within : i.Within sized.sizes.size labels := fun c hc =>
    hi c (kept c (mem_labels.2 ⟨labels, by simp [inputs], hc⟩))
  exact moves.get?_of_traces rearranges one held traces rfl final within

section Transposed

variable {labels target : Labels}

theorem text_single (labels target : Labels) :
    text ⟨[labels], some target⟩ = labels.text ++ "->" ++ target.text := by
  have arrow : "->" = String.ofList ['-', '>'] := by decide
  rw [text, Labels.text, Labels.text, arrow, ← String.ofList_append, ← String.ofList_append,
    List.append_assoc]
  simp [chars]

theorem fits_single {shape : List Nat} (nodup : labels.Nodup) (perm : target.Perm labels)
    (rank : shape.length = labels.length) : Fits ⟨[labels], some target⟩ [shape] where
  operands := rfl
  ranks := by
    rintro _ _ ⟨⟩
    · exact rank.symm
    · contradiction
  sizes := by
    rintro c ⟨k, axis⟩ hp ⟨k', axis'⟩ ho
    obtain ⟨first, at_k, at_axis⟩ := mem_places.1 hp
    obtain ⟨second, at_k', at_axis'⟩ := mem_places.1 ho
    obtain ⟨rfl, rfl⟩ : k = 0 ∧ labels = first := by cases k <;> simp_all
    obtain ⟨rfl, rfl⟩ : k' = 0 ∧ labels = second := by cases k' <;> simp_all
    have inside := (List.getElem?_eq_some_iff.1 at_axis).1
    have same : axis = axis' := (List.getElem?_inj inside nodup).1 (at_axis.trans at_axis'.symm)
    rw [same]
  output := by
    rintro _ ⟨⟩
    exact ⟨fun c hc => ⟨labels, List.mem_singleton_self _, perm.mem_iff.1 hc⟩, perm.nodup_iff.2 nodup⟩

/-- What writing the labels in another order does to a tensor. -/
theorem exists_transposed {α : Type} [Zero α] [Add α] [Mul α] {x : Tensor α} (nodup : labels.Nodup)
    (letters : ∀ c ∈ labels, IsLetter c) (perm : target.Perm labels)
    (rank : x.shape.length = labels.length) (settings : Settings) :
    ∃ y size, evaluate (Tensor.backend α) (labels.text ++ "->" ++ target.text) [x] settings = .ok y ∧
      x.shape = labels.map size ∧ y.shape = target.map size ∧
      ∀ i : Assignment Label, i.Within size target →
        y.get? (target.map i) = x.get? (labels.map i) := by
  have lettered : Lettered ⟨[labels], some target⟩ := by
    refine ⟨List.forall_mem_singleton.2 letters, ?_⟩
    rintro _ ⟨⟩ c hc
    exact letters c (perm.mem_iff.1 hc)
  have parse : ofText (labels.text ++ "->" ++ target.text) 1 = .ok ⟨[labels], some target⟩ := by
    rw [← text_single]
    exact lettered.ofText_text (by simp) (by simp)
  obtain ⟨sized, fit⟩ := exists_fit_iff.2 (fits_single nodup perm rank)
  have fitted := fitted_of_fit fit
  have output : sized.output = target := fitted.output_eq
  have kept : ∀ c ∈ (⟨[labels], some target⟩ : Equation).labels, c ∈ sized.output := fun c hc => by
    obtain ⟨_, hm, hc⟩ := mem_labels.1 hc
    rw [output, perm.mem_iff, ← List.mem_singleton.1 hm]
    exact hc
  obtain ⟨_, plan, y, inputs, hplan, -, run, shape, entries⟩ := exists_rearranged parse fit kept settings
  obtain rfl := List.singleton_inj.1 inputs
  rw [output] at shape entries
  refine ⟨y, sized.sizes.size, bind_eq_ok_iff.2 ⟨plan, hplan, run settings⟩, ?_, shape, entries⟩
  exact List.singleton_inj.1 fitted.shapes_map

theorem transposed_back {α : Type} [Zero α] [Add α] [Mul α] {x : Tensor α} (nodup : labels.Nodup)
    (letters : ∀ c ∈ labels, IsLetter c) (perm : target.Perm labels)
    (rank : x.shape.length = labels.length) (settings settings' : Settings) :
    ∃ y, evaluate (Tensor.backend α) (labels.text ++ "->" ++ target.text) [x] settings = .ok y ∧
      evaluate (Tensor.backend α) (target.text ++ "->" ++ labels.text) [y] settings' = .ok x := by
  obtain ⟨y, size, first, x_shape, y_shape, there⟩ :=
    exists_transposed nodup letters perm rank settings
  obtain ⟨z, size', second, y_shape', z_shape, back⟩ := exists_transposed (x := y)
    (perm.nodup_iff.2 nodup) (fun c hc => letters c (perm.mem_iff.1 hc)) perm.symm
    (by rw [y_shape, List.length_map]) settings'
  have sizes : ∀ c ∈ target, size' c = size c := List.map_inj_left.1 (y_shape'.symm.trans y_shape)
  have shape : z.shape = x.shape := by
    rw [z_shape, x_shape]
    exact List.map_congr_left fun c hc => sizes c (perm.mem_iff.2 hc)
  have same : z = x := by
    refine Tensor.eq_of_get? shape fun index inside => ?_
    rw [z_shape] at inside
    obtain ⟨i, within, rfl⟩ := exists_map_eq nodup inside
    have within' : i.Within size target := fun c hc =>
      sizes c hc ▸ within c (perm.mem_iff.1 hc)
    exact (back i within).trans (there i within')
  exact ⟨y, first, same ▸ second⟩

end Transposed

end Equation

/-- Expressions of one operand that keep all of its labels are planned with diagonals and
permutations only, and every entry of the value is the entry of the operand that its labels
name, whatever the entries are. Hence labels written in another order and back again give the
operand itself. -/
theorem single_operand_moves_entries {α : Type} [Zero α] [Add α] [Mul α] :
    (∀ (text : String) (equation : Equation) (sized : SizedEquation) (x : Tensor α)
        (settings : Settings), Equation.ofText text 1 = .ok equation →
      equation.fit [x.shape] = .ok sized → (∀ c ∈ equation.labels, c ∈ sized.output) →
      ∃ labels plan value, equation.inputs = [labels] ∧
        planText text [x.shape] settings = .ok plan ∧
        (∀ step ∈ plan.steps, (∃ input groups, step.action = .diagonalize input groups) ∨
          ∃ input axes, step.action = .permute input axes) ∧
        (∀ settings', plan.run (Tensor.backend α) [x] settings' = .ok value) ∧
        value.shape = sized.sizes.shape sized.output ∧
        ∀ index, (offset? value.shape index).isSome → ∃ (i : Assignment Label) (a : α),
          sized.output.map i = index ∧ value.get? index = some a ∧
            x.get? (labels.map i) = some a) ∧
    ∀ (labels target : Labels) (x : Tensor α) (settings settings' : Settings), labels.Nodup →
      (∀ c ∈ labels, IsLetter c) → target.Perm labels → x.shape.length = labels.length →
      ∃ y, evaluate (Tensor.backend α) (labels.text ++ "->" ++ target.text) [x] settings = .ok y ∧
        evaluate (Tensor.backend α) (target.text ++ "->" ++ labels.text) [y] settings' = .ok x := by
  refine ⟨fun text equation sized x settings parse fit kept => ?_,
    fun labels target x settings settings' nodup letters perm rank =>
      Equation.transposed_back nodup letters perm rank settings settings'⟩
  obtain ⟨labels, plan, value, inputs, hplan, rearranges, run, shape, entries⟩ :=
    Equation.exists_rearranged parse fit kept settings
  refine ⟨labels, plan, value, inputs, hplan,
    fun step hm => Action.rearranges_iff.1 (rearranges step hm), run, shape, fun index inside => ?_⟩
  obtain ⟨a, found⟩ := Option.isSome_iff_exists.1 (Tensor.isSome_get? inside)
  rw [shape] at inside
  obtain ⟨i, within, rfl⟩ := exists_map_eq (Equation.fitted_of_fit fit).nodup inside
  exact ⟨i, a, rfl, found, (entries i within).symm.trans found⟩

/-- The diagonal of the last two axes, put first, and a cyclic order of three axes. -/
theorem single_operand_moves_entries_cyclic :
    let cube : Tensor Nat := ⟨[2, 2, 2], #[0, 1, 2, 3, 4, 5, 6, 7], rfl⟩
    (∃ plan value, planText "ijj->ji" [[2, 2, 2]] .fast = .ok plan ∧
      plan.run (Tensor.backend Nat) [cube] .safe = .ok value ∧ value.shape = [2, 2] ∧
      ∃ i : Assignment Label, ['j', 'i'].map i = [1, 0] ∧
        value.get? [1, 0] = cube.get? (['i', 'j', 'j'].map i)) ∧
    ∃ y, evaluate (Tensor.backend Nat) "abc->bca" [cube] .fast = .ok y ∧
      evaluate (Tensor.backend Nat) "bca->abc" [y] .safe = .ok cube := by
  intro cube
  let equation : Equation := ⟨[['i', 'j', 'j']], some ['j', 'i']⟩
  let sized : SizedEquation := ⟨equation, [[2, 2, 2]], ⟨[('i', 2), ('j', 2)]⟩, ['j', 'i']⟩
  have parse : Equation.ofText "ijj->ji" 1 = .ok equation := by rfl
  have fit : equation.fit [cube.shape] = .ok sized := by rfl
  obtain ⟨moves, back⟩ := single_operand_moves_entries (α := Nat)
  obtain ⟨labels, plan, value, inputs, hplan, -, run, shape, entries⟩ :=
    moves "ijj->ji" equation sized cube .fast parse fit
      (by simp [equation, sized, Equation.mem_labels])
  obtain rfl := List.singleton_inj.1 inputs
  obtain ⟨i, a, named, found, read⟩ := entries [1, 0] (by rw [shape]; rfl)
  refine ⟨⟨plan, value, hplan, run .safe, shape, i, named, found.trans read.symm⟩, ?_⟩
  exact back ['a', 'b', 'c'] ['b', 'c', 'a'] cube .fast .safe (by decide) (by simp [IsLetter])
    (by decide) rfl

end Einsum
