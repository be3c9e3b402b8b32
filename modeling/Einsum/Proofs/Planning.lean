import Einsum.Proofs.Subsets

/-! Plans as moves.
The parts of a plan are moves between tensors at hand: the steps that each operand needs for
itself, the contractions along the path, and what is left to do for the output. After the
private labels are summed no label that the output lacks lives in one tensor only, and the
contractions keep it so. Hence one tensor remains that carries the labels of the output, and
at most their order is wrong. -/

namespace Einsum

namespace Source

variable {output : Labels} {next : Nat} {replace : Source → Option (Action × Labels)}
  {sources : List Source}

/-- Replacing one tensor after the other, each by an action that reads it alone. -/
theorem replaceEach_moves (done : List Source)
    (spec : ∀ source ∈ sources, ∀ action labels, replace source = some (action, labels) →
      action.inputs = [source.id] ∧ action.Relabels [source.labels] labels ∧
        ∀ c ∈ action.summed,
          c ∉ output ∧ (done ++ sources).countP (·.labels.contains c) ≤ 1) :
    Moves output next (done ++ sources) (replaceEach replace next sources).1
      (done ++ (replaceEach replace next sources).2) := by
  induction sources generalizing next done with
  | nil => exact .nil
  | cons source rest ih =>
    obtain ⟨first, others⟩ := List.forall_mem_cons.1 spec
    cases h : replace source with
    | none =>
      have moves := @ih next (done ++ [source]) (by simpa using others)
      rw [replaceEach, h]
      simpa using moves
    | some new =>
      obtain ⟨action, labels⟩ := new
      obtain ⟨inputs, relabels, summed⟩ := first action labels h
      have move : Move output next (done ++ source :: rest) ⟨action, labels, next⟩
          (done ++ ⟨next, labels⟩ :: rest) := .replace inputs relabels summed
      -- the tensors that follow find no more labels in the others than before
      have fewer (c : Label) : (done ++ ⟨next, labels⟩ :: rest).countP (·.labels.contains c) ≤
          (done ++ source :: rest).countP (·.labels.contains c) := by
        have kept : c ∈ labels → c ∈ source.labels := fun hc => by
          simpa using relabels.mem_read_iff.2 (.inr hc)
        rw [List.countP_append, List.countP_append, List.countP_cons, List.countP_cons]
        by_cases hc : c ∈ labels
        · simp [hc, kept hc]
        · simp [hc]
      have moves := @ih (next + 1) (done ++ [⟨next, labels⟩]) fun other hm action' labels' h' => by
        obtain ⟨inputs, relabels, summed⟩ := others other hm action' labels' h'
        refine ⟨inputs, relabels, fun c hc => ⟨(summed c hc).1, ?_⟩⟩
        simpa using (fewer c).trans (summed c hc).2
      rw [replaceEach, h]
      exact .cons move (by simpa using moves)

theorem labels_replaceEach (replace : Source → Option (Action × Labels)) (next : Nat)
    (sources : List Source) :
    (replaceEach replace next sources).2.map (·.labels) =
      sources.map fun source => ((replace source).map (·.2)).getD source.labels := by
  induction sources generalizing next with
  | nil => rfl
  | cons source rest ih =>
    rw [replaceEach]
    cases h : replace source <;> simp [h, ih]

theorem exists_replaced {step : Step} (h : step ∈ (replaceEach replace next sources).1) :
    ∃ source ∈ sources, replace source = some (step.action, step.output) := by
  induction sources generalizing next with
  | nil => cases h
  | cons source rest ih =>
    rw [replaceEach] at h
    cases hs : replace source with
    | none =>
      rw [hs] at h
      obtain ⟨other, hm, ho⟩ := ih h
      exact ⟨other, List.mem_cons_of_mem source hm, ho⟩
    | some new =>
      rw [hs] at h
      rcases List.mem_cons.1 h with rfl | h
      · exact ⟨source, List.mem_cons_self, hs⟩
      · obtain ⟨other, hm, ho⟩ := ih h
        exact ⟨other, List.mem_cons_of_mem source hm, ho⟩

theorem nodup_of_diagonals_eq_nil {labels : Labels} (h : labels.diagonals = []) :
    labels.Nodup := by
  have single (c : Label) (hc : c ∈ labels) : (labels.axesOf c).length ≤ 1 := by
    have := List.filterMap_eq_nil_iff.1 h c (Labels.mem_distinct.2 hc)
    simpa using this
  refine List.nodup_iff_getElem?_ne_getElem?.2 fun i j hij hj heq => ?_
  have hc : labels[j]? = some labels[j] := List.getElem?_eq_getElem hj
  obtain ⟨axis, haxis⟩ := List.length_eq_one_iff.1 (Nat.le_antisymm
    (single labels[j] (List.getElem_mem hj))
    (List.length_pos_of_mem (Labels.mem_axesOf.2 hc)))
  have hi := Labels.mem_axesOf.2 (heq.trans hc)
  have hj := Labels.mem_axesOf.2 hc
  rw [haxis, List.mem_singleton] at hi hj
  omega

theorem collapse_spec {source : Source} {action : Action} {labels : Labels}
    (h : source.collapse = some (action, labels)) :
    action = .diagonalize source.id source.labels.diagonals ∧ labels = source.labels.distinct := by
  rw [collapse] at h
  split at h
  · cases h
  · cases h
    exact ⟨rfl, rfl⟩

theorem labels_collapse (source : Source) :
    ((source.collapse).map (·.2)).getD source.labels = source.labels.distinct := by
  rw [collapse]
  split
  · rename_i h
    exact (eraseDups_eq_self (nodup_of_diagonals_eq_nil h)).symm
  · rfl

theorem sumOut_nil (source : Source) : source.sumOut [] = none := rfl

theorem sumOut_spec {source : Source} {summed : Labels} {action : Action} {labels : Labels}
    (h : source.sumOut summed = some (action, labels)) :
    action = .reduceSum source.id (positions (· ∈ summed) source.labels) summed ∧
      labels = source.labels.filter (· ∉ summed) := by
  rw [sumOut] at h
  split at h
  · cases h
  · cases h
    simp [positions]

theorem arrange_spec {source : Source} {operands : Nat} {output : Labels} {action : Action}
    {labels : Labels} (h : source.arrange operands output = some (action, labels)) :
    action = .permute source.id (output.filterMap fun c => source.labels.idxOf? c) ∧
      labels = output := by
  simp only [arrange] at h
  split at h
  · cases h
  · cases h
    exact ⟨rfl, rfl⟩

theorem labels_sumOut (source : Source) (summed : Labels) :
    ((source.sumOut summed).map (·.2)).getD source.labels =
      source.labels.filter (· ∉ summed) := by
  cases summed with
  | nil => simp [sumOut]
  | cons c summed => simp [sumOut]

theorem mem_privateLabels {sources : List Source} {source : Source} {c : Label} :
    c ∈ privateLabels sources output source ↔
      c ∈ source.labels ∧ c ∉ output ∧ sources.countP (·.labels.contains c) = 1 := by
  simp [privateLabels]

theorem length_replaceEach (replace : Source → Option (Action × Labels)) (next : Nat)
    (sources : List Source) : (replaceEach replace next sources).2.length = sources.length := by
  simpa using congrArg List.length (labels_replaceEach replace next sources)

/-- Taking the diagonals leaves distinct labels. -/
theorem collapse_moves (output : Labels) (next : Nat) (sources : List Source) :
    let (steps, singles) := replaceEach collapse next sources
    Moves output next sources steps singles ∧
      (∀ step ∈ steps, step.action.name = "diagonalize") ∧
      ∀ source ∈ singles, source.labels.Nodup := by
  refine ⟨?_, ?_, ?_⟩
  · refine replaceEach_moves [] fun source hm action labels h => ?_
    obtain ⟨rfl, rfl⟩ := collapse_spec h
    exact ⟨rfl, .diagonalize _ _, fun c hc => nomatch hc⟩
  · intro step hm
    obtain ⟨source, -, h⟩ := exists_replaced hm
    rw [(collapse_spec h).1]
    rfl
  · intro source hm
    have labels := List.mem_map_of_mem (f := fun source : Source => source.labels) hm
    rw [labels_replaceEach, List.mem_map] at labels
    obtain ⟨operand, -, h⟩ := labels
    rw [labels_collapse] at h
    exact h ▸ nodup_eraseDups operand.labels

/-- Summing the private labels leaves no label that the output lacks in one tensor only. -/
theorem sumPrivate_moves (output : Labels) (next : Nat) {sources : List Source}
    (nodup : ∀ source ∈ sources, source.labels.Nodup) :
    let sumPrivate := fun source : Source => source.sumOut (source.privateLabels sources output)
    let (steps, left) := replaceEach sumPrivate next sources
    Moves output next sources steps left ∧
      (∀ step ∈ steps, step.action.name = "reduce_sum") ∧ Shared output left := by
  intro sumPrivate
  refine ⟨?_, ?_, fun c hc => ?_⟩
  · refine replaceEach_moves [] fun source hm action labels h => ?_
    obtain ⟨rfl, rfl⟩ := sumOut_spec h
    refine ⟨rfl, .reduceSum _ (nodup source hm) ((nodup source hm).filter _) ?_, fun c hc => ?_⟩
    · exact List.filter_subset_self source.labels
    · obtain ⟨-, hout, alone⟩ := mem_privateLabels.1 hc
      exact ⟨hout, Nat.le_of_eq alone⟩
  · intro step hm
    obtain ⟨source, -, h⟩ := exists_replaced hm
    rw [(sumOut_spec h).1]
    rfl
  · have count : (replaceEach sumPrivate next sources).2.countP (·.labels.contains c) =
        ((replaceEach sumPrivate next sources).2.map (·.labels)).countP (·.contains c) := by
      rw [List.countP_map]
      rfl
    have kept (source : Source) : c ∈ ((sumPrivate source).map (·.2)).getD source.labels ↔
        c ∈ source.labels ∧ sources.countP (·.labels.contains c) ≠ 1 := by
      rw [labels_sumOut, List.mem_filter, decide_eq_true_eq, mem_privateLabels]
      exact ⟨fun h => ⟨h.1, fun alone => h.2 ⟨h.1, hc, alone⟩⟩, fun h => ⟨h.1, fun p => h.2 p.2.2⟩⟩
    rw [count, labels_replaceEach, List.countP_map]
    by_cases alone : sources.countP (·.labels.contains c) = 1
    · rw [List.countP_eq_zero.2 fun source _ => ?_]
      · omega
      · rw [Function.comp, List.contains_iff_mem, kept]
        exact fun h => h.2 alone
    · rw [List.countP_congr fun source _ => ?_]
      · exact alone
      · rw [Function.comp, List.contains_iff_mem, List.contains_iff_mem, kept]
        exact and_iff_left alone

/-- The number in the plan of a tensor of the path. -/
def number (table : List Source) (id : Nat) : Nat := (table[id]?.map (·.id)).getD 0

/-- A table lists the tensors of a pool, those that are gone included. -/
structure Tabulates (table : List Source) (pool : Pool) : Prop where
  length : table.length = pool.made.length
  labels : ∀ id ∈ pool.live, table[id]?.map (·.labels) = some (pool.labelsOf id)

theorem Tabulates.getElem? {table : List Source} {pool : Pool} (h : Tabulates table pool) {id : Nat}
    (live : id ∈ pool.live) : table[id]? = some ⟨number table id, pool.labelsOf id⟩ := by
  obtain ⟨source, hs, hl⟩ := Option.map_eq_some_iff.1 (h.labels id live)
  rw [number, hs, ← hl]
  rfl

theorem Tabulates.contracted {table : List Source} {pool : Pool} (h : Tabulates table pool)
    (valid : pool.Valid) (a b next : Nat) (result : Labels) :
    Tabulates (table ++ [⟨next, result⟩]) (pool.contracted a b result) where
  length := by simp [h.length, Pool.length_made_contracted]
  labels id live := by
    rcases List.mem_append.1 live with hm | hm
    · obtain ⟨hm, hne⟩ := List.mem_filter.1 hm
      have hlt := h.length ▸ valid.lt_length hm
      obtain ⟨ha, hb⟩ : id ≠ a ∧ id ≠ b := by simpa using hne
      rw [List.getElem?_append_left hlt, h.labels id hm, valid.labelsOf_contracted hm ha hb]
    · rw [List.mem_singleton.1 hm, ← h.length, List.getElem?_concat_length, h.length,
        Pool.labelsOf_contracted_length]
      rfl

theorem number_append {table : List Source} {id : Nat} (h : id < table.length) (source : Source) :
    number (table ++ [source]) id = number table id := by
  rw [number, number, List.getElem?_append_left h]

theorem follow_moves {network : Network} {model : CostModel} {pool pool' : Pool}
    {path : List Contraction} (replays : Network.Replays network model pool path pool')
    (valid : pool.Valid) (nodup : ∀ id ∈ pool.live, (pool.labelsOf id).Nodup) {table : List Source}
    (tabulates : Tabulates table pool) (next : Nat) :
    ∃ steps table', follow next table path = .ok (steps, table') ∧
      Moves network.output next (pool.atHand (number table)) steps
        (pool'.atHand (number table')) ∧
      Tabulates table' pool' ∧ steps.map (·.action.name) = List.replicate path.length "contract" := by
  induction replays generalizing table next with
  | nil => exact ⟨[], table, rfl, .nil, tabulates, rfl⟩
  | @cons pool pool' step cost path left right ne weigh _ ih =>
    obtain ⟨-, -, keep, labels, kept⟩ := Network.exists_keep valid left right weigh
    let made : Source := ⟨next, step.result⟩
    have same : ∀ id ∈ pool.live, number (table ++ [made]) id = number table id := fun id live =>
      number_append (tabulates.length ▸ valid.lt_length live) made
    have new : number (table ++ [made]) pool.made.length = next := by
      simp [number, ← tabulates.length, made]
    have move := valid.move left right ne nodup kept labels (number table)
      (number (table ++ [made])) same step.flops
    rw [new] at move
    have nodup' := move.nodup_labels fun source hm => by
      obtain ⟨id, live, rfl⟩ := List.mem_map.1 hm
      exact nodup id live
    obtain ⟨steps, table', hfollow, moves, tabulates', names⟩ := ih (valid.contracted _ _ _)
      (fun id live => nodup' ⟨_, _⟩ (List.mem_map_of_mem live))
      (tabulates.contracted valid _ _ next step.result) (next + 1)
    refine ⟨_ :: steps, table', ?_, .cons move moves, tabulates', ?_⟩
    · rw [follow, tabulates.getElem? left, tabulates.getElem? right]
      simp only [hfollow]
      rfl
    · rw [List.map_cons, names]
      rfl

theorem tabulates_ofTerms (sources : List Source) :
    Tabulates sources (.ofTerms (sources.map (·.labels))) where
  length := by simp [Pool.ofTerms]
  labels id live := by
    have hlt : id < sources.length := by simpa [Pool.ofTerms] using live
    simp [Pool.labelsOf_ofTerms, hlt]

theorem atHand_ofTerms (sources : List Source) :
    (Pool.ofTerms (sources.map (·.labels))).atHand (number sources) = sources := by
  have tabulates := tabulates_ofTerms sources
  apply List.ext_getElem?
  intro id
  by_cases hlt : id < sources.length
  · have live : id ∈ (Pool.ofTerms (sources.map (·.labels))).live := by simpa [Pool.ofTerms] using hlt
    rw [tabulates.getElem? live, Pool.atHand, List.getElem?_map]
    simp [Pool.ofTerms, hlt]
  · simp [Pool.atHand, Pool.ofTerms, hlt]

/-- Every strategy contracts the tensors at hand to one, the last one made. -/
theorem contract_moves (sizes : SizeTable) (output : Labels) (model : CostModel)
    (strategy : Strategy) {sources : List Source} (nonempty : sources ≠ [])
    (nodup : ∀ source ∈ sources, source.labels.Nodup) (next : Nat) :
    ∃ path steps table last,
      Network.path ⟨sources.map (·.labels), sizes, output⟩ model strategy = .ok path ∧
      follow next sources path.steps = .ok (steps, table) ∧ table.getLast? = some last ∧
      Moves output next sources steps [last] ∧
      steps.map (·.action.name) = List.replicate (sources.length - 1) "contract" := by
  let network : Network := ⟨sources.map (·.labels), sizes, output⟩
  obtain ⟨path, pool, hpath, replays, length, one⟩ := network.path_replays model strategy
    (by simpa [network] using nonempty)
  have valid := Pool.ofTerms_valid (sources.map (·.labels))
  have tabulates := tabulates_ofTerms sources
  have termsNodup : ∀ id ∈ (Pool.ofTerms (sources.map (·.labels))).live,
      ((Pool.ofTerms (sources.map (·.labels))).labelsOf id).Nodup := by
    intro id live
    exact nodup _ (List.mem_of_getElem? (tabulates.getElem? live))
  obtain ⟨steps, table, hfollow, moves, tabulates, names⟩ :=
    follow_moves replays valid termsNodup tabulates next
  rw [atHand_ofTerms] at moves
  -- the pool has one tensor left, so this is the newest one
  obtain ⟨id, live⟩ := List.length_eq_one_iff.1 one
  have pos := List.length_pos_of_ne_nil nonempty
  have newest := replays.newest_live (by
    simp only [Pool.ofTerms, List.length_map, List.mem_range, network]
    omega)
  have last := tabulates.getElem? newest
  rw [live, List.mem_singleton] at newest
  rw [← tabulates.length, ← List.getLast?_eq_getElem?] at last
  refine ⟨path, steps, table, _, hpath, hfollow, last, ?_, by simpa [length, network] using names⟩
  rwa [Pool.atHand, live, List.map_singleton, ← newest, ← tabulates.length] at moves

theorem arrange_moves {output : Labels} {source : Source} (operands next : Nat)
    (perm : output.Perm source.labels) (nodup : source.labels.Nodup) :
    ∃ orders id, replaceEach (arrange operands output) next [source] = (orders, [⟨id, output⟩]) ∧
      Moves output next [source] orders [⟨id, output⟩] ∧
      (orders = [] ∧ operands ≤ source.id ∨ orders = [⟨.permute source.id
        (output.filterMap fun c => source.labels.idxOf? c), output, next⟩]) := by
  have axes : (output.filterMap fun c => source.labels.idxOf? c) =
      output.map fun c => source.labels.idxOf c := filterMap_idxOf? fun c hc => perm.mem_iff.1 hc
  by_cases h : (output.map fun c => source.labels.idxOf c) = List.range source.labels.length ∧
      operands ≤ source.id
  · obtain rfl : output = source.labels :=
      (h.1 ▸ names_idxOf fun c hc => perm.mem_iff.1 hc).unique (names_range source.labels)
    refine ⟨[], source.id, ?_, .nil, .inl ⟨rfl, h.2⟩⟩
    simp [replaceEach, arrange, axes, h]
  · have relabels := Action.Relabels.permute source.id nodup perm
    have move : Move output next ([] ++ source :: [])
        ⟨.permute source.id (output.map fun c => source.labels.idxOf c), output, next⟩
        ([] ++ ⟨next, output⟩ :: []) := .replace rfl relabels fun c hc => nomatch hc
    refine ⟨[_], next, ?_, .cons move .nil, .inr (by rw [axes])⟩
    simp [replaceEach, arrange, axes, perm.length_eq, h]

end Source

namespace SizedEquation

def operands (sized : SizedEquation) : List Source :=
  sized.equation.inputs.zipIdx.map fun (labels, id) => ⟨id, labels⟩

theorem length_operands (sized : SizedEquation) :
    sized.operands.length = sized.equation.inputs.length := by
  simp [operands]

theorem getElem?_operands (sized : SizedEquation) (id : Nat) :
    sized.operands[id]? = sized.equation.inputs[id]?.map fun labels => ⟨id, labels⟩ := by
  simp [operands, Function.comp_def]

theorem alive_operands {sized : SizedEquation} {c : Label} :
    Alive sized.operands c ↔ c ∈ sized.equation.labels := by
  rw [Equation.mem_labels]
  constructor
  · rintro ⟨source, hm, hc⟩
    obtain ⟨id, hid⟩ := List.mem_iff_getElem?.1 hm
    rw [getElem?_operands] at hid
    obtain ⟨labels, hl, rfl⟩ := Option.map_eq_some_iff.1 hid
    exact ⟨labels, List.mem_of_getElem? hl, hc⟩
  · rintro ⟨labels, hm, hc⟩
    obtain ⟨id, hid⟩ := List.mem_iff_getElem?.1 hm
    exact ⟨⟨id, labels⟩, List.mem_of_getElem? (by rw [getElem?_operands, hid]; rfl), hc⟩

/-- Every operand loses its repeated labels and then its private ones. -/
theorem prepare_moves (sized : SizedEquation) :
    ∃ diagonals sums sources, sized.prepare = (diagonals ++ sums, sources) ∧
      Moves sized.output sized.equation.inputs.length sized.operands (diagonals ++ sums) sources ∧
      (∀ step ∈ diagonals, step.action.name = "diagonalize") ∧
      (∀ step ∈ sums, step.action.name = "reduce_sum") ∧
      sources.length = sized.equation.inputs.length ∧
      (∀ source ∈ sources, source.labels.Nodup) ∧ Shared sized.output sources := by
  let n := sized.equation.inputs.length
  let collapsed := Source.replaceEach Source.collapse n sized.operands
  obtain ⟨first, diagonal, nodup⟩ := Source.collapse_moves sized.output n sized.operands
  let sumPrivate (source : Source) :=
    source.sumOut (source.privateLabels collapsed.2 sized.output)
  let summed := Source.replaceEach sumPrivate (n + collapsed.1.length) collapsed.2
  obtain ⟨second, sum, shared⟩ :=
    Source.sumPrivate_moves sized.output (n + collapsed.1.length) nodup
  refine ⟨collapsed.1, summed.1, summed.2, rfl, first.append second, diagonal, sum, ?_,
    second.nodup_labels nodup, shared⟩
  rw [Source.length_replaceEach, Source.length_replaceEach, length_operands]

/-- The phases of a plan, the path and all tensors of its contractions, and the tensor that
these leave. -/
structure Phases (sized : SizedEquation) (plan : Plan) where
  diagonals : List Step
  sums : List Step
  contractions : List Step
  orders : List Step
  path : Path
  table : List Source
  last : Source
  prepared : sized.prepare.1 = diagonals ++ sums
  followed : Source.follow (sized.equation.inputs.length + sized.prepare.1.length) sized.prepare.2 path.steps =
    .ok (contractions, table)
  newest : table.getLast? = some last
  finished : sized.finish (sized.equation.inputs.length + sized.prepare.1.length + contractions.length)
    (some last) = orders
  inputs : plan.inputs = sized.equation.inputs
  inputShapes : plan.inputShapes = sized.shapes
  output : plan.output = sized.output
  outputShape : plan.outputShape = sized.outputShape
  steps : plan.steps = diagonals ++ sums ++ contractions ++ orders
  moves : Moves sized.output sized.equation.inputs.length sized.operands
    (diagonals ++ sums ++ contractions) [last]
  diagonal : ∀ step ∈ diagonals, step.action.name = "diagonalize"
  sum : ∀ step ∈ sums, step.action.name = "reduce_sum"
  contraction : contractions.map (·.action.name) =
    List.replicate (sized.equation.inputs.length - 1) "contract"
  perm : sized.output.Perm last.labels
  nodup : last.labels.Nodup
  order : orders = [] ∧ sized.equation.inputs.length ≤ last.id ∨
    orders = [⟨.permute last.id (sized.output.filterMap fun c => last.labels.idxOf? c), sized.output,
      sized.equation.inputs.length + (diagonals ++ sums ++ contractions).length⟩]
  value : ∃ id, Moves sized.output (sized.equation.inputs.length + (diagonals ++ sums ++ contractions).length)
    [last] orders [⟨id, sized.output⟩]

theorem finish_eq {sized : SizedEquation} {last : Source} (next : Nat)
    (labels : ∀ c ∈ last.labels, c ∈ sized.output) :
    sized.finish next (some last) =
      (Source.replaceEach (Source.arrange sized.equation.inputs.length sized.output) next [last]).1 := by
  have none : last.labels.filter (fun c => !sized.output.contains c) = [] := by
    simpa using labels
  have dangling : Source.replaceEach (fun source => source.sumOut
      (source.labels.filter fun c => !sized.output.contains c)) next [last] = ([], [last]) := by
    simp only [Source.replaceEach, none, Source.sumOut_nil]
  rw [finish, Option.toList_some, dangling]
  rfl

/-- When one tensor is left it carries the labels of the output. -/
theorem perm_output_of_moves {sized : SizedEquation} {next : Nat} {steps : List Step}
    {last : Source} (moves : Moves sized.output next sized.operands steps [last])
    (shared : Shared sized.output [last]) (nodup : sized.output.Nodup)
    (subset : ∀ c ∈ sized.output, c ∈ sized.equation.labels) (lastNodup : last.labels.Nodup) :
    sized.output.Perm last.labels := by
  refine (List.perm_ext_iff_of_nodup nodup lastNodup).2 fun c => ⟨fun hc => ?_, fun hc => ?_⟩
  · simpa [Alive] using moves.alive_output hc (alive_operands.2 (subset c hc))
  · by_contra hout
    exact shared c hout (by simp [hc])

/-- A plan exists and has its phases, for every strategy. -/
theorem exists_phases (sized : SizedEquation) (inputs : sized.equation.inputs ≠ [])
    (nodup : sized.output.Nodup) (subset : ∀ c ∈ sized.output, c ∈ sized.equation.labels)
    (strategy : Strategy) (model : CostModel) :
    ∃ plan, sized.plan strategy model = .ok plan ∧ ∃ phases : Phases sized plan,
      (sized.network sized.prepare.2).path model strategy = .ok phases.path := by
  obtain ⟨diagonals, sums, sources, prepare, first, diagonal, sum, length, sourcesNodup, shared⟩ :=
    sized.prepare_moves
  have nonempty : sources ≠ [] := by
    rw [← List.length_pos_iff, length]
    exact List.length_pos_of_ne_nil inputs
  obtain ⟨path, contractions, table, last, hpath, hfollow, hlast, second, contraction⟩ :=
    Source.contract_moves sized.sizes sized.output model strategy nonempty sourcesNodup
      (sized.equation.inputs.length + (diagonals ++ sums).length)
  have moves := first.append second
  have lastNodup := second.nodup_labels sourcesNodup last (by simp)
  have perm := perm_output_of_moves moves (second.shared shared) nodup subset lastNodup
  let next := sized.equation.inputs.length + (diagonals ++ sums ++ contractions).length
  obtain ⟨orders, id, horders, third, order⟩ :=
    Source.arrange_moves sized.equation.inputs.length next perm lastNodup
  have finish : sized.finish next (some last) = orders := by
    rw [finish_eq next fun c hc => perm.mem_iff.2 hc]
    exact congrArg Prod.fst horders
  have next_eq : sized.equation.inputs.length + (diagonals ++ sums).length + contractions.length =
      next := by
    simp only [next, List.length_append]
    omega
  let made : Plan := {
    steps := diagonals ++ sums ++ contractions ++ orders
    inputs := sized.equation.inputs
    inputShapes := sized.shapes
    output := sized.output
    outputShape := sized.outputShape
    strategy := strategy.forTerms sized.equation.inputs.length
    flops := path.flops }
  let phases : Phases sized made := {
    diagonals, sums, contractions, orders, path, table, last, moves, diagonal, sum, perm, order
    prepared := congrArg Prod.fst prepare
    followed := by rw [prepare, hfollow]
    newest := hlast
    finished := by rw [prepare, next_eq, finish]
    inputs := rfl
    inputShapes := rfl
    output := rfl
    outputShape := rfl
    steps := rfl
    contraction := length ▸ contraction
    nodup := lastNodup
    value := ⟨id, third⟩ }
  have chosen : (sized.network sized.prepare.2).path model strategy = .ok path := by
    rw [prepare]
    exact hpath
  refine ⟨made, ?_, phases, chosen⟩
  rw [plan, prepare]
  simp only [bind, Except.bind, network, hpath, hfollow, hlast]
  rw [next_eq, finish]
  rfl

/-- What a plan is made of: the steps of each operand, those of a path over what they leave, and
those from the last tensor to the value. -/
theorem parts_of_plan {sized : SizedEquation} {strategy : Strategy} {model : CostModel} {plan : Plan}
    (h : sized.plan strategy model = .ok plan) :
    ∃ path contractions table, (sized.network sized.prepare.2).path model strategy = .ok path ∧
      Source.follow (sized.equation.inputs.length + sized.prepare.1.length) sized.prepare.2 path.steps =
        .ok (contractions, table) ∧
      plan.steps = sized.prepare.1 ++ contractions ++ sized.finish (sized.equation.inputs.length +
        sized.prepare.1.length + contractions.length) table.getLast? ∧ plan.flops = path.flops := by
  rw [SizedEquation.plan] at h
  obtain ⟨path, hpath, h⟩ := bind_eq_ok_iff.1 h
  obtain ⟨⟨contractions, table⟩, hfollow, h⟩ := bind_eq_ok_iff.1 h
  cases h
  exact ⟨path, contractions, table, hpath, hfollow, rfl, rfl⟩

end SizedEquation

end Einsum
