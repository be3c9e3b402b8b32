import Einsum.Proofs.OptimalPlans
import Einsum.Proofs.Sizing

/-! Estimates are exact up to one clamp.
Whatever is counted on the way - volumes, the cost of a contraction, the operations of a path
or of a plan - is the exact number, clamped once at the end. So functions that multiply the
same sizes in other orders agree also where the products are too large to be told apart: a
single loop nest is estimated as one contraction over the same labels. -/

namespace Einsum

namespace SizeTable

variable {table : SizeTable}

theorem volume_perm {labels labels' : Labels} (perm : labels.Perm labels') :
    table.volume labels' = .ofNat (table.shape labels).prod := by
  rw [volume_eq, shape, shape, (perm.map table.size).prod_eq]

theorem volume_ascending_append (table : SizeTable) (left right : Labels) :
    table.volume (Labels.ascending (left ++ right)) =
      table.volume (Labels.distinct (left ++ right)) := by
  refine volume_congr (Labels.nodup_ascending _) (nodup_eraseDups _) fun c => ?_
  rw [Labels.mem_ascending, Labels.mem_distinct]

theorem volume_twice (table : SizeTable) (labels : Labels) :
    table.volume labels * 2 = .ofNat (2 * (table.shape labels).prod) := by
  rw [volume_eq, Nat.mul_comm, ← Estimate.ofNat_mul]
  rfl

theorem elements_shape (table : SizeTable) (labels : Labels) :
    elements (table.shape labels) = table.volume labels := by
  rw [elements, Estimate.product_map_ofNat, volume_eq]

end SizeTable

/-- Both sides are counted over the union of their labels, each label once. -/
theorem CostModel.pairwise_split (model : CostModel) (table : SizeTable) {left right : Labels}
    (keep : Label → Bool) (leftNodup : left.Nodup) (rightNodup : right.Nodup) :
    model.pairwise table left right (.split left right keep) =
      .clamped model.alpha (2 * (table.shape (Labels.distinct (left ++ right))).prod)
        ((table.shape left).prod + (table.shape right).prod +
          (table.shape (Pairing.split left right keep).result).prod) := by
  rw [pairwise, SizeTable.volume_split leftNodup rightNodup, SizeTable.volume_ascending_append,
    SizeTable.volume_eq, SizeTable.volume_eq, SizeTable.volume_eq, SizeTable.volume_eq,
    contraction_ofNat]

theorem Path.flops_eq (path : Path) :
    path.flops = .ofNat (path.steps.map (·.flops.toNat)).sum := by
  rw [flops, Estimate.sum_eq, List.map_map]
  rfl

namespace Network

variable {network : Network} {model : CostModel} {pool : Pool} {a b : Nat} {left right : Labels}

theorem flops_weigh (valid : pool.Valid) (ha : a ∈ pool.live) (hb : b ∈ pool.live)
    (l : pool.labelsOf a = left) (r : pool.labelsOf b = right)
    (leftNodup : left.Nodup) (rightNodup : right.Nodup)
    {step : Contraction} {cost : Cost} (h : network.weigh model pool a b = .ok (step, cost)) :
    step.flops = network.sizes.volume (Labels.distinct (left ++ right)) * 2 := by
  obtain ⟨-, -, keep, labels, -⟩ := exists_keep valid ha hb h
  obtain ⟨flops, cost_eq⟩ := weighed valid ha hb h
  rw [flops, cost_eq, labels, l, r, CostModel.pairwise_split model _ keep leftNodup rightNodup,
    SizeTable.volume_twice, Cost.clamped]

theorem labelsOf_two (ha : a ∈ (Pool.ofTerms [left, right]).live)
    (hb : b ∈ (Pool.ofTerms [left, right]).live) (ne : a ≠ b) :
    (Pool.ofTerms [left, right]).labelsOf a = left ∧ (Pool.ofTerms [left, right]).labelsOf b = right ∨
      (Pool.ofTerms [left, right]).labelsOf a = right ∧
        (Pool.ofTerms [left, right]).labelsOf b = left := by
  have numbers : a = 0 ∧ b = 1 ∨ a = 1 ∧ b = 0 := by
    have ha := List.mem_range.1 ha
    have hb := List.mem_range.1 hb
    simp only [List.length_cons, List.length_nil] at ha hb
    omega
  obtain ⟨rfl, rfl⟩ | ⟨rfl, rfl⟩ := numbers
  · exact .inl ⟨rfl, rfl⟩
  · exact .inr ⟨rfl, rfl⟩

/-- Two terms take a single contraction, over all labels of both. -/
theorem flops_of_two (terms : network.terms = [left, right])
    (leftNodup : left.Nodup) (rightNodup : right.Nodup) {strategy : Strategy} {path : Path}
    (h : network.path model strategy = .ok path) :
    path.flops = network.sizes.volume (Labels.distinct (left ++ right)) * 2 := by
  obtain ⟨found, pool, hfound, replays, length, -⟩ :=
    network.path_replays model strategy (by rw [terms]; simp)
  obtain rfl : found = path := Except.ok.inj (hfound.symm.trans h)
  rw [terms] at replays length
  obtain ⟨step, hstep⟩ := List.length_eq_one_iff.1 length
  rw [hstep] at replays
  cases replays with
  | cons hl hr ne weigh _ =>
    have valid := Pool.ofTerms_valid [left, right]
    have one : found.flops = step.flops := by
      rw [Path.flops, hstep, List.map_singleton, Estimate.sum_eq]
      exact Estimate.ofNat_toNat _
    rcases labelsOf_two hl hr ne with ⟨l, r⟩ | ⟨l, r⟩
    · rw [one, flops_weigh valid hl hr l r leftNodup rightNodup weigh]
    · rw [one, flops_weigh valid hl hr l r rightNodup leftNodup weigh]
      congr 1
      refine SizeTable.volume_congr (nodup_eraseDups _) (nodup_eraseDups _) fun c => ?_
      rw [Labels.mem_distinct, Labels.mem_distinct, List.mem_append, List.mem_append, or_comm]

end Network

namespace SizedEquation

variable {sized : SizedEquation}

theorem memory_eq (sized : SizedEquation) :
    sized.memory = .ofNat (sized.outputShape.prod + (sized.shapes.map List.prod).sum) := by
  have clamped : elements = fun shape => Estimate.ofNat shape.prod :=
    funext Estimate.product_map_ofNat
  rw [memory, clamped, ← Estimate.foldl_add_ofNat, List.map_map]
  rfl

theorem flops_plan {strategy : Strategy} {model : CostModel} {plan : Plan}
    (h : sized.plan strategy model = .ok plan) :
    plan.flops = .ofNat (plan.contractions.map (·.flops.toNat)).sum := by
  obtain ⟨path, number, -, flops, contractions⟩ := contractions_plan h
  rw [flops, Path.flops_eq, contractions, List.map_map]
  rfl

/-- Operands without repeated or private labels are contracted as they are. -/
theorem reduced_terms (h : ∀ labels ∈ sized.equation.inputs,
      labels.Nodup ∧ ∀ c ∈ labels, sized.needs c = true) :
    sized.reduced.terms = sized.equation.inputs := by
  refine (List.map_congr_left fun labels hm => ?_).trans (List.map_id _)
  obtain ⟨nodup, needed⟩ := h labels hm
  rw [Labels.distinct, eraseDups_eq_self nodup, List.filter_eq_self.2 needed, id]

end SizedEquation

namespace Equation

variable {equation : Equation} {shapes : List (List Nat)} {sized : SizedEquation}

/-- A single loop nest runs over all labels of the operands. -/
theorem flops_of_fit (fit : equation.fit shapes = .ok sized) :
    sized.flops = sized.sizes.volume (Labels.distinct equation.inputs.flatten) * 2 := by
  have fitted := fitted_of_fit fit
  obtain ⟨summed, ascending, member, sizes⟩ := (describes_of_fit fit).summedShape
  have nodup : summed.Nodup := ascending.imp Char.ne_of_lt
  have loops : sized.sizes.volume sized.output * sized.sizes.volume summed =
      sized.sizes.volume (Labels.distinct equation.inputs.flatten) := by
    rw [← SizeTable.volume_append]
    refine SizeTable.volume_congr (List.nodup_append.2 ⟨fitted.nodup, nodup, ?_⟩)
      (nodup_eraseDups _) fun c => ?_
    · rintro c hc _ hs rfl
      exact ((member c).1 hs).2 hc
    · have inside : c ∈ sized.output → c ∈ equation.inputs.flatten := fun hc =>
        List.mem_flatten.2 (mem_labels.1 (fitted.subset c hc))
      rw [List.mem_append, member, Labels.mem_distinct]
      tauto
  rw [SizedEquation.flops, SizedEquation.outputShape, SizeTable.eq_shape sizes.symm,
    SizeTable.elements_shape, SizeTable.elements_shape, loops]

/-- Two operands that have all of their labels to contract take what a single loop nest does. -/
theorem flops_plan_of_two (fit : equation.fit shapes = .ok sized) {left right : Labels}
    (inputs : equation.inputs = [left, right]) (leftNodup : left.Nodup) (rightNodup : right.Nodup)
    (needed : ∀ c ∈ left ++ right, c ∈ sized.output ∨ c ∈ left ∧ c ∈ right)
    (strategy : Strategy) (model : CostModel) :
    ∃ plan, sized.plan strategy model = .ok plan ∧ plan.flops = sized.flops := by
  have fitted := fitted_of_fit fit
  obtain rfl := fitted.equation_eq
  have nonempty : sized.equation.inputs ≠ [] := by rw [inputs]; simp
  obtain ⟨plan, hplan, -⟩ :=
    sized.exists_phases nonempty fitted.nodup fitted.subset strategy model
  obtain ⟨path, -, hpath, flops, -⟩ := SizedEquation.contractions_plan hplan
  have needs (c : Label) (hc : c ∈ left ++ right) : sized.needs c = true := by
    rw [SizedEquation.needs_iff, inputs]
    refine (needed c hc).imp_right fun ⟨l, r⟩ => ?_
    simp [l, r]
  have terms : sized.reduced.terms = [left, right] := by
    rw [← inputs]
    refine SizedEquation.reduced_terms ?_
    rw [inputs]
    refine List.forall_mem_cons.2 ⟨⟨leftNodup, fun c hc => needs c (List.mem_append_left _ hc)⟩, ?_⟩
    exact List.forall_mem_singleton.2
      ⟨rightNodup, fun c hc => needs c (List.mem_append_right _ hc)⟩
  refine ⟨plan, hplan, ?_⟩
  rw [flops, Network.flops_of_two terms leftNodup rightNodup hpath, flops_of_fit fit, inputs,
    List.flatten_cons, List.flatten_singleton]
  rfl

end Equation

/-- Counts are exact numbers, clamped once at the largest one of 64 bits. The order of labels
makes no difference to a volume, costs add up like exact ones, and a contraction takes two
operations for every index of the union of both sides. A path and a plan take what their steps
take, and a single loop nest two operations for every index of all labels. So a plan for two
operands, which has nothing else to do than to contract them, takes as many. -/
theorem estimates_clamp_once (table : SizeTable) (model : CostModel) :
    (∀ n, (Estimate.ofNat n).toNat = min n (2 ^ 64 - 1)) ∧
    (∀ labels labels' : Labels, labels.Perm labels' →
      table.volume labels' = .ofNat (table.shape labels).prod) ∧
    (∀ flops memory, Cost.weighted (.ofNat flops) (.ofNat memory) model.alpha =
      ⟨.ofNat flops, .ofNat memory, .ofNat (flops + model.alpha.toNat * memory)⟩) ∧
    (∀ flops memory flops' memory',
      Cost.clamped model.alpha flops memory + Cost.clamped model.alpha flops' memory' =
        .clamped model.alpha (flops + flops') (memory + memory')) ∧
    (∀ left right union result,
      model.contraction (.ofNat left) (.ofNat right) (.ofNat union) (.ofNat result) =
        .clamped model.alpha (2 * union) (left + right + result)) ∧
    (∀ (left right : Labels) (keep : Label → Bool), left.Nodup → right.Nodup →
      (model.pairwise table left right (.split left right keep)).flops =
        .ofNat (2 * (table.shape (Labels.distinct (left ++ right))).prod)) ∧
    (∀ path : Path, path.flops = .ofNat (path.steps.map (·.flops.toNat)).sum) ∧
    (∀ (sized : SizedEquation) (strategy : Strategy) (plan : Plan),
      sized.plan strategy model = .ok plan →
        plan.flops = .ofNat (plan.contractions.map (·.flops.toNat)).sum) ∧
    ∀ (equation : Equation) (shapes : List (List Nat)) (sized : SizedEquation),
      equation.fit shapes = .ok sized →
        sized.flops =
          .ofNat (2 * (sized.sizes.shape (Labels.distinct equation.inputs.flatten)).prod) ∧
        sized.memory = .ofNat (sized.outputShape.prod + (shapes.map List.prod).sum) ∧
        ∀ left right, equation.inputs = [left, right] → left.Nodup → right.Nodup →
          (∀ c ∈ left ++ right, c ∈ sized.output ∨ c ∈ left ∧ c ∈ right) →
          ∀ strategy, ∃ plan, sized.plan strategy model = .ok plan ∧ plan.flops = sized.flops := by
  refine ⟨fun n => rfl, fun labels labels' perm => SizeTable.volume_perm perm,
    Cost.weighted_ofNat model.alpha, Cost.clamped_add model.alpha, model.contraction_ofNat, ?_,
    Path.flops_eq, fun sized strategy plan h => SizedEquation.flops_plan h, ?_⟩
  · intro left right keep leftNodup rightNodup
    rw [model.pairwise_split table keep leftNodup rightNodup, Cost.clamped]
  · intro equation shapes sized fit
    have memory := sized.memory_eq
    rw [(Equation.fitted_of_fit fit).shapes_eq] at memory
    refine ⟨?_, memory, fun left right inputs leftNodup rightNodup needed strategy =>
      Equation.flops_plan_of_two fit inputs leftNodup rightNodup needed strategy model⟩
    rw [Equation.flops_of_fit fit, SizeTable.volume_twice]

/-- A zero counts after the product was too large to be told apart, and a product of matrices
is too dear to be told from another one. -/
theorem estimates_clamp_once_huge :
    let table : SizeTable := ⟨[('i', 2 ^ 40), ('j', 2 ^ 40), ('k', 0)]⟩
    let equation : Equation := ⟨[['i', 'j'], ['j', 'k']], some ['k', 'i']⟩
    let shapes := [[2 ^ 40, 2 ^ 40], [2 ^ 40, 3]]
    let sizes : SizeTable := ⟨[('i', 2 ^ 40), ('j', 2 ^ 40), ('k', 3)]⟩
    let sized : SizedEquation := ⟨equation, shapes, sizes, ['k', 'i']⟩
    table.volume ['i', 'j'] = .infinite ∧ table.volume ['i', 'j', 'k'] = 0 ∧
      equation.fit shapes = .ok sized ∧ sized.flops = .infinite ∧
      ∀ strategy, ∃ plan, sized.plan strategy .cpu = .ok plan ∧ plan.flops = .infinite := by
  intro table equation shapes sizes sized
  obtain ⟨-, volume, -, -, -, -, -, -, fits⟩ := estimates_clamp_once table .cpu
  have fit : equation.fit shapes = .ok sized := by rfl
  obtain ⟨flops, -, plans⟩ := fits equation shapes sized fit
  have huge : sized.flops = .infinite := flops.trans (by decide)
  refine ⟨(volume _ _ (.refl _)).trans (by decide), (volume _ _ (.refl _)).trans (by decide), fit,
    huge, fun strategy => ?_⟩
  obtain ⟨plan, hplan, same⟩ := plans _ _ rfl (by decide) (by decide) (by simp [sized]) strategy
  exact ⟨plan, hplan, same.trans huge⟩

end Einsum
