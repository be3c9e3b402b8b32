import Einsum.Document.Settings

/-! Plans and settings that are written and read again.
Each codec comes with the property that it keeps: what has it is read back as it was
written, and whatever is read has it. Numbers have to be words of 64 bits. -/

namespace Einsum

/-- The numbers are words of 64 bits. -/
def Words (numbers : List Nat) : Prop := ∀ n ∈ numbers, n < UInt64.size

instance (numbers : List Nat) : Decidable (Words numbers) :=
  inferInstanceAs (Decidable (∀ n ∈ numbers, n < UInt64.size))

section Words

variable {α : Type} {n : Nat} {a b : List Nat}

theorem words_cons : Words (n :: a) ↔ n < UInt64.size ∧ Words a := List.forall_mem_cons

theorem words_append : Words (a ++ b) ↔ Words a ∧ Words b := List.forall_mem_append

theorem words_flatMap {f : α → List Nat} {items : List α} :
    Words (items.flatMap f) ↔ ∀ item ∈ items, Words (f item) := by
  simp only [Words, List.mem_flatMap]
  grind

theorem words_flatten {rows : List (List Nat)} : Words rows.flatten ↔ ∀ row ∈ rows, Words row := by
  simp only [Words, List.mem_flatten]
  grind

end Words

namespace Codec

variable {α β : Type}

/-- The codec is for the items with a property: such an item is read back as it was written,
and no other item is read. -/
structure Exact (codec : Codec α) (p : α → Prop) : Prop where
  decode_encode : ∀ a, p a → codec.decode (codec.encode a) = some a
  of_decode : ∀ document a, codec.decode document = some a → p a

variable {first : Codec α} {second : Codec β} {p : α → Prop} {q : β → Prop}

theorem bool_exact : bool.Exact fun _ => True where
  decode_encode _ _ := rfl
  of_decode _ _ _ := trivial

theorem nat_exact : nat.Exact (· < UInt64.size) where
  decode_encode n h := if_pos h
  of_decode document n h := by
    simp only [nat] at h
    split at h
    · split at h
      · cases h
        assumption
      · cases h
    · cases h

theorem char_exact : char.Exact fun _ => True where
  decode_encode c _ := by simp [char, String.toList_singleton]
  of_decode _ _ _ := trivial

theorem Exact.list (exact : first.Exact p) : first.list.Exact fun items => ∀ a ∈ items, p a where
  decode_encode items h := by
    change (items.map first.encode).mapM first.decode = some items
    induction items with
    | nil => rfl
    | cons a items ih =>
      obtain ⟨ha, h⟩ := List.forall_mem_cons.1 h
      rw [List.map_cons, List.mapM_cons, exact.decode_encode a ha, ih h]
      rfl
  of_decode document items h := by
    cases document with
    | list documents =>
      replace h : documents.mapM first.decode = some items := h
      induction documents generalizing items with
      | nil =>
        cases h
        simp
      | cons document documents ih =>
        simp only [List.mapM_cons, bind, Option.bind_eq_some_iff, pure, Option.some.injEq] at h
        obtain ⟨a, ha, rest, hrest, rfl⟩ := h
        exact List.forall_mem_cons.2 ⟨exact.of_decode document a ha, ih rest hrest⟩
    | _ => cases h

theorem Exact.pair (exact : first.Exact p) (exact' : second.Exact q) :
    (first.pair second).Exact fun pair => p pair.1 ∧ q pair.2 where
  decode_encode pair h := by
    simp [Codec.pair, exact.decode_encode _ h.1, exact'.decode_encode _ h.2]
  of_decode document pair h := by
    simp only [Codec.pair] at h
    split at h
    · simp only [bind, Option.bind_eq_some_iff, pure, Option.some.injEq] at h
      obtain ⟨a, ha, b, hb, rfl⟩ := h
      exact ⟨exact.of_decode _ a ha, exact'.of_decode _ b hb⟩
    · cases h

theorem Exact.congr {p' : α → Prop} (exact : first.Exact p) (h : ∀ a, p a ↔ p' a) :
    first.Exact p' where
  decode_encode a ha := exact.decode_encode a ((h a).2 ha)
  of_decode document a ha := (h a).1 (exact.of_decode document a ha)

end Codec

/-- In a record whose fields have different names no field is given twice. -/
theorem Document.isSingle_of_nodup {fields : List (String × Document)}
    (nodup : (fields.map (·.1)).Nodup) (names : List String) : isSingle names fields := by
  refine List.all_eq_true.2 fun name _ => decide_eq_true ?_
  have once := List.nodup_iff_count.1 nodup name
  rwa [List.count, List.countP_map] at once

theorem Estimate.codec_exact : codec.Exact fun _ => True where
  decode_encode count _ := by
    have h : count.toNat < UInt64.size := Nat.lt_of_le_pred (by decide) count.toNat_le
    simp [codec, Codec.nat_exact.decode_encode _ h, ofNat_toNat]
  of_decode _ _ _ := trivial

theorem Labels.codec_exact : codec.Exact fun _ => True where
  decode_encode labels _ := by
    have h := Codec.char_exact.list.decode_encode labels fun _ _ => trivial
    simp [codec, Document.fields?, Document.named?, Document.isSingle_of_nodup, h]
  of_decode _ _ _ := trivial

theorem AxisGroup.codec_exact : codec.Exact fun group => Words group.axes where
  decode_encode group h := by
    have label := Codec.char_exact.decode_encode group.label trivial
    have axes := Codec.nat_exact.list.decode_encode group.axes h
    simp [codec, Document.fields?, Document.named?, Document.isSingle_of_nodup, List.lookup_cons,
      label, axes]
  of_decode document group h := by
    simp only [codec, bind, Option.bind_eq_some_iff] at h
    obtain ⟨fields, -, h⟩ := h
    split at h
    · simp only [Option.bind_eq_some_iff, pure, Option.some.injEq] at h
      obtain ⟨label, -, axes, h, rfl⟩ := h
      exact Codec.nat_exact.list.of_decode _ axes h
    · cases h

theorem Pairing.codec_exact : codec.Exact fun _ => True where
  decode_encode pairing _ := by
    have labels (labels : Labels) := Labels.codec_exact.decode_encode labels trivial
    simp [codec, Document.fields?, Document.named?, Document.isSingle_of_nodup, List.lookup_cons,
      labels]
  of_decode _ _ _ := trivial

theorem Codec.axisPairs_exact : axisPairs.Exact fun pairs =>
    Words (pairs.map (·.1)) ∧ Words (pairs.map (·.2)) :=
  (nat_exact.pair nat_exact).list.congr fun pairs => by
    simp only [Words, List.forall_mem_map, forall_and]

theorem ContractionAxes.codec_exact :
    codec.Exact fun axes => Words (axes.leftOrder ++ axes.rightOrder) where
  decode_encode axes h := by
    simp only [leftOrder, rightOrder, words_append] at h
    have batch := Codec.axisPairs_exact.decode_encode axes.batch ⟨h.1.1.1, h.2.1.1⟩
    have summed := Codec.axisPairs_exact.decode_encode axes.summed ⟨h.1.2, h.2.1.2⟩
    have left := Codec.nat_exact.list.decode_encode axes.leftFree h.1.1.2
    have right := Codec.nat_exact.list.decode_encode axes.rightFree h.2.2
    simp [codec, Document.fields?, Document.named?, Document.isSingle_of_nodup, List.lookup_cons,
      batch, summed, left, right]
  of_decode document axes h := by
    simp only [codec, bind, Option.bind_eq_some_iff] at h
    obtain ⟨fields, -, h⟩ := h
    split at h
    · simp only [Option.bind_eq_some_iff, pure, Option.some.injEq] at h
      obtain ⟨batch, hb, summed, hs, left, hl, right, hr, rfl⟩ := h
      have batch := Codec.axisPairs_exact.of_decode _ _ hb
      have summed := Codec.axisPairs_exact.of_decode _ _ hs
      have left := Codec.nat_exact.list.of_decode _ _ hl
      have right := Codec.nat_exact.list.of_decode _ _ hr
      simp only [leftOrder, rightOrder, words_append]
      exact ⟨⟨⟨batch.1, left⟩, summed.1⟩, ⟨batch.2, summed.2⟩, right⟩
    · cases h

theorem Strategy.codec_exact : codec.Exact fun _ => True where
  decode_encode strategy _ := ofName?_name strategy
  of_decode _ _ _ := trivial

/-- The tensors and axes that an action names. -/
def Action.numbers : Action → List Nat
  | .diagonalize input groups => input :: groups.flatMap (·.axes)
  | .reduceSum input axes _ => input :: axes
  | .contract left right _ axes _ => left :: right :: (axes.leftOrder ++ axes.rightOrder)
  | .permute input axes => input :: axes

def Step.numbers (step : Step) : List Nat := step.result :: step.action.numbers

/-- The tensors, axes and sizes that a plan names. -/
def Plan.numbers (plan : Plan) : List Nat :=
  plan.steps.flatMap Step.numbers ++ plan.inputShapes.flatten ++ plan.outputShape

namespace Step

theorem decode_encode (step : Step) (h : Words step.numbers) :
    codec.decode (codec.encode step) = some step := by
  obtain ⟨action, output, result⟩ := step
  obtain ⟨hresult, h⟩ := words_cons.1 h
  have result := Codec.nat_exact.decode_encode _ hresult
  have labels (labels : Labels) := Labels.codec_exact.decode_encode labels trivial
  cases action with
  | diagonalize input groups =>
    obtain ⟨hinput, h⟩ := words_cons.1 h
    have input := Codec.nat_exact.decode_encode _ hinput
    have groups := AxisGroup.codec_exact.list.decode_encode groups (words_flatMap.1 h)
    simp [codec, fieldsOf, actionOf, diagonalizeOf, Document.named?, Document.isSingle_of_nodup,
      List.lookup_cons, input, groups, result, labels]
  | reduceSum input axes summed =>
    obtain ⟨hinput, h⟩ := words_cons.1 h
    have input := Codec.nat_exact.decode_encode _ hinput
    have axes := Codec.nat_exact.list.decode_encode axes h
    simp [codec, fieldsOf, actionOf, reduceSumOf, Document.named?, Document.isSingle_of_nodup,
      List.lookup_cons, input, axes, result, labels]
  | contract left right pairing axes flops =>
    obtain ⟨hleft, h⟩ := words_cons.1 h
    obtain ⟨hright, h⟩ := words_cons.1 h
    have left := Codec.nat_exact.decode_encode _ hleft
    have right := Codec.nat_exact.decode_encode _ hright
    have pairing := Pairing.codec_exact.decode_encode pairing trivial
    have axes := ContractionAxes.codec_exact.decode_encode axes h
    have flops := Estimate.codec_exact.decode_encode flops trivial
    simp [codec, fieldsOf, actionOf, contractOf, Document.named?, Document.isSingle_of_nodup,
      List.lookup_cons, left, right, pairing, axes, flops, result, labels]
  | permute input axes =>
    obtain ⟨hinput, h⟩ := words_cons.1 h
    have input := Codec.nat_exact.decode_encode _ hinput
    have axes := Codec.nat_exact.list.decode_encode axes h
    simp [codec, fieldsOf, actionOf, permuteOf, Document.named?, Document.isSingle_of_nodup,
      List.lookup_cons, input, axes, result, labels]

variable {fields : List (String × Document)} {action : Action}

theorem words_diagonalizeOf (h : diagonalizeOf fields = some action) : Words action.numbers := by
  simp only [diagonalizeOf, bind, Option.bind_eq_some_iff] at h
  obtain ⟨values, -, h⟩ := h
  split at h
  · simp only [Option.bind_eq_some_iff, pure, Option.some.injEq] at h
    obtain ⟨input, hinput, groups, hgroups, rfl⟩ := h
    exact words_cons.2 ⟨Codec.nat_exact.of_decode _ _ hinput,
      words_flatMap.2 (AxisGroup.codec_exact.list.of_decode _ _ hgroups)⟩
  · cases h

theorem words_reduceSumOf (h : reduceSumOf fields = some action) : Words action.numbers := by
  simp only [reduceSumOf, bind, Option.bind_eq_some_iff] at h
  obtain ⟨values, -, h⟩ := h
  split at h
  · simp only [Option.bind_eq_some_iff, pure, Option.some.injEq] at h
    obtain ⟨input, hinput, axes, haxes, summed, -, rfl⟩ := h
    exact words_cons.2 ⟨Codec.nat_exact.of_decode _ _ hinput,
      Codec.nat_exact.list.of_decode _ _ haxes⟩
  · cases h

theorem words_contractOf (h : contractOf fields = some action) : Words action.numbers := by
  simp only [contractOf, bind, Option.bind_eq_some_iff] at h
  obtain ⟨values, -, h⟩ := h
  split at h
  · simp only [Option.bind_eq_some_iff, pure, Option.some.injEq] at h
    obtain ⟨left, hleft, right, hright, labels, -, axes, haxes, flops, -, rfl⟩ := h
    exact words_cons.2 ⟨Codec.nat_exact.of_decode _ _ hleft,
      words_cons.2 ⟨Codec.nat_exact.of_decode _ _ hright,
        ContractionAxes.codec_exact.of_decode _ _ haxes⟩⟩
  · cases h

theorem words_permuteOf (h : permuteOf fields = some action) : Words action.numbers := by
  simp only [permuteOf, bind, Option.bind_eq_some_iff] at h
  obtain ⟨values, -, h⟩ := h
  split at h
  · simp only [Option.bind_eq_some_iff, pure, Option.some.injEq] at h
    obtain ⟨input, hinput, axes, haxes, rfl⟩ := h
    exact words_cons.2 ⟨Codec.nat_exact.of_decode _ _ hinput,
      Codec.nat_exact.list.of_decode _ _ haxes⟩
  · cases h

theorem words_actionOf {kind : String} (h : actionOf kind fields = some action) :
    Words action.numbers := by
  rw [actionOf] at h
  split at h
  · exact words_diagonalizeOf h
  split at h
  · exact words_reduceSumOf h
  split at h
  · exact words_contractOf h
  split at h
  · exact words_permuteOf h
  · cases h

theorem codec_exact : codec.Exact fun step => Words step.numbers where
  decode_encode := decode_encode
  of_decode document step h := by
    simp only [codec] at h
    split at h
    · simp only [bind, Option.bind_eq_some_iff] at h
      obtain ⟨action, haction, values, -, h⟩ := h
      split at h
      · simp only [Option.bind_eq_some_iff, pure, Option.some.injEq] at h
        obtain ⟨output, -, result, hresult, rfl⟩ := h
        exact words_cons.2 ⟨Codec.nat_exact.of_decode _ _ hresult, words_actionOf haction⟩
      · cases h
    · cases h

end Step

theorem Plan.codec_exact : codec.Exact fun plan => Words plan.numbers where
  decode_encode plan h := by
    simp only [numbers, words_append, words_flatMap, words_flatten] at h
    have steps := Step.codec_exact.list.decode_encode plan.steps h.1.1
    have inputs := Labels.codec_exact.list.decode_encode plan.inputs fun _ _ => trivial
    have inputShapes := Codec.nat_exact.list.list.decode_encode plan.inputShapes h.1.2
    have output := Labels.codec_exact.decode_encode plan.output trivial
    have outputShape := Codec.nat_exact.list.decode_encode plan.outputShape h.2
    have strategy := Strategy.codec_exact.decode_encode plan.strategy trivial
    have flops := Estimate.codec_exact.decode_encode plan.flops trivial
    simp [codec, Document.fields?, Document.named?, Document.isSingle_of_nodup, List.lookup_cons,
      steps, inputs, inputShapes, output, outputShape, strategy, flops]
  of_decode document plan h := by
    simp only [codec, bind, Option.bind_eq_some_iff] at h
    obtain ⟨fields, -, h⟩ := h
    split at h
    · simp only [Option.bind_eq_some_iff, pure, Option.some.injEq] at h
      obtain ⟨steps, hsteps, inputs, -, inputShapes, hinputShapes, output, -, outputShape,
        houtputShape, strategy, -, flops, -, rfl⟩ := h
      simp only [numbers, words_append, words_flatMap, words_flatten]
      exact ⟨⟨Step.codec_exact.list.of_decode _ _ hsteps,
        Codec.nat_exact.list.list.of_decode _ _ hinputShapes⟩,
        Codec.nat_exact.list.of_decode _ _ houtputShape⟩
    · cases h

theorem CostModel.codec_exact : codec.Exact fun _ => True where
  decode_encode model _ := by
    have alpha := Estimate.codec_exact.decode_encode model.alpha trivial
    simp [codec, Document.fields?, Document.named?, Document.isSingle_of_nodup, alpha]
  of_decode _ _ _ := trivial

theorem Settings.codec_exact : codec.Exact fun _ => True where
  decode_encode settings _ := by
    have strategy := Strategy.codec_exact.decode_encode settings.strategy trivial
    have costModel := CostModel.codec_exact.decode_encode settings.costModel trivial
    have parallel := Codec.bool_exact.decode_encode settings.parallel trivial
    simp [codec, Document.optionalFields?, Document.isSingle_of_nodup, List.lookup_cons,
      Codec.decodeOr, strategy, costModel, parallel]
  of_decode _ _ _ := trivial

/-- A plan is read back as it was written just if all its numbers are words, as in every plan
that is read at all. Settings always are, also those read with some of them left out. -/
theorem written_is_read_back :
    (∀ plan, Plan.codec.decode (Plan.codec.encode plan) = some plan ↔ Words plan.numbers) ∧
    (∀ document plan, Plan.codec.decode document = some plan →
      Plan.codec.decode (Plan.codec.encode plan) = some plan) ∧
    (∀ settings, Settings.codec.decode (Settings.codec.encode settings) = some settings) ∧
    ∀ document settings, Settings.codec.decode document = some settings →
      Settings.codec.decode (Settings.codec.encode settings) = some settings := by
  have plans := Plan.codec_exact
  have settings := Settings.codec_exact
  refine ⟨fun plan => ⟨plans.of_decode _ plan, plans.decode_encode plan⟩, fun document plan h => ?_,
    fun kept => settings.decode_encode kept trivial,
    fun _ kept _ => settings.decode_encode kept trivial⟩
  exact plans.decode_encode plan (plans.of_decode document plan h)

/-- A plan with a step of each kind, the largest numbers and a label beyond the letters, and
settings that leave two of three out. -/
theorem written_is_read_back_each_kind :
    let top := UInt64.size - 1
    let plan : Plan :=
      { steps := [
          ⟨.diagonalize 0 [⟨'i', [0, 1]⟩], ['i', 'é'], 2⟩,
          ⟨.reduceSum 2 [1] ['é'], ['i'], 3⟩,
          ⟨.contract 3 1 ⟨['i'], [], [], ['k']⟩ ⟨[(0, 1)], [], [], [0]⟩ .infinite, ['i', 'k'], 4⟩,
          ⟨.permute 4 [1, 0], ['k', 'i'], top⟩]
        inputs := [['i', 'i', 'é'], ['k', 'i']]
        inputShapes := [[0, 0, top], [top, 0]]
        output := ['k', 'i']
        outputShape := [top, 0]
        strategy := .greedy
        flops := 7 }
    let document := .record [("cost_model", .record [("alpha", .integer 3)])]
    let settings : Settings := ⟨.auto, ⟨3⟩, false⟩
    Words plan.numbers ∧ Plan.codec.decode (Plan.codec.encode plan) = some plan ∧
    Settings.codec.decode document = some settings ∧
    Settings.codec.decode (Settings.codec.encode settings) = some settings := by
  intro top plan document settings
  have words : Words plan.numbers := by decide
  have read : Settings.codec.decode document = some settings := rfl
  obtain ⟨plans, -, -, accepted⟩ := written_is_read_back
  exact ⟨words, (plans plan).2 words, read, accepted document _ read⟩

end Einsum
