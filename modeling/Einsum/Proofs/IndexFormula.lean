import Mathlib.Data.List.GetD
import Einsum.Proofs.Product

/-! Contraction by axis numbers.
A contraction takes any axes that pair equal sizes and name each axis of either side once,
as long as its result can be addressed. Its entry at the coordinates of the batch axes and
the free axes is the sum, over the coordinates of the summed axes, of the products of the
entries read where all of these put the axes.
For the proof a left axis carries its own number as its label. A right axis carries the
number of the left axis that it is paired with, or else one beyond the left axes. -/

namespace Einsum

/-- The indices of a shape, in row-major order. -/
def indices : List Nat → List (List Nat)
  | [] => [[]]
  | size :: shape => (List.range size).flatMap fun i => (indices shape).map (i :: ·)

theorem mem_indices {shape index : List Nat} :
    index ∈ indices shape ↔ (offset? shape index).isSome := by
  induction shape generalizing index with
  | nil => cases index <;> simp [indices, offset?]
  | cons size shape ih =>
    cases index with
    | nil => simp [indices, offset?]
    | cons i index => by_cases hi : i < size <;> simp [indices, offset?, ih, hi]

theorem append_mem_indices {shape shape' index index' : List Nat} (h : index ∈ indices shape)
    (h' : index' ∈ indices shape') : index ++ index' ∈ indices (shape ++ shape') := by
  induction shape generalizing index with
  | nil =>
    obtain rfl : index = [] := by simpa [indices] using h
    exact h'
  | cons size shape ih =>
    simp only [indices, List.cons_append, List.mem_flatMap, List.mem_map] at h ⊢
    obtain ⟨i, hi, rest, hrest, rfl⟩ := h
    exact ⟨i, hi, rest ++ index', ih hrest, rfl⟩

/-- Indices of three groups of labels are one assignment. -/
theorem exists_map_eq_three {ι : Type} [DecidableEq ι] {size : ι → Nat}
    {first second third : List ι} (nodup : (first ++ second ++ third).Nodup) {a b c : List Nat}
    (ha : a ∈ indices (first.map size)) (hb : b ∈ indices (second.map size))
    (hc : c ∈ indices (third.map size)) :
    ∃ x : Assignment ι, x.Within size (first ++ second ++ third) ∧
      first.map x = a ∧ second.map x = b ∧ third.map x = c := by
  have length {labels : List ι} {index : List Nat} (h : index ∈ indices (labels.map size)) :
      labels.length = index.length := by
    simpa using (length_of_isSome_offset? (mem_indices.1 h)).symm
  have joined := append_mem_indices (append_mem_indices ha hb) hc
  rw [← List.map_append, ← List.map_append] at joined
  obtain ⟨x, hx, map⟩ := exists_map_eq nodup (mem_indices.1 joined)
  rw [List.map_append, List.map_append] at map
  obtain ⟨map, third⟩ := List.append_inj map (by simp [length ha, length hb])
  obtain ⟨first, second⟩ := List.append_inj map (by simp [length ha])
  exact ⟨x, hx, first, second, third⟩

theorem marginal_eq_sum_indices {ι α : Type} [DecidableEq ι] [AddCommMonoid α] {size : ι → Nat}
    {f : Assignment ι → α} {x : Assignment ι} (labels : List ι) :
    marginal size labels f x =
      ((indices (labels.map size)).map fun index => f (x.set labels index)).sum := by
  induction labels generalizing x with
  | nil => simp [marginal, indices, Assignment.set]
  | cons c labels ih =>
    simp only [marginal, ih, List.map_cons, indices, List.map_flatMap, List.map_map]
    rw [List.flatMap_def, List.sum_flatten, List.map_map]
    rfl

/-- The index that has the coordinates at the axes of an order. -/
def indexAt (order coordinates : List Nat) : List Nat :=
  (List.range order.length).map fun axis => coordinates.getD (order.idxOf axis) 0

/-- An index whose axes carry labels is put together by any order of its axes. -/
theorem indexAt_map {ι : Type} {labels target : List ι} {order : List Nat}
    (names : Names labels order target) (perm : order.Perm (List.range labels.length))
    (x : Assignment ι) : indexAt order (target.map x) = labels.map x := by
  have length : order.length = labels.length := by simpa using perm.length_eq
  refine List.ext_getElem (by simp [indexAt, length]) fun axis h below => ?_
  have below : axis < labels.length := by simpa using below
  have listed : axis ∈ order := perm.mem_iff.2 (List.mem_range.2 below)
  have carried : target[order.idxOf axis]? = some labels[axis] := by
    rw [names.getElem?, List.getElem?_idxOf listed, Option.bind_some,
      List.getElem?_eq_getElem below]
  simp [indexAt, carried]

namespace ContractionAxes

/-- The axes pair equal sizes and name each axis of either side once. -/
structure Suits (axes : ContractionAxes) (leftShape rightShape : List Nat) : Prop where
  paired : ∀ pair ∈ axes.batch ++ axes.summed, ∃ size,
    leftShape[pair.1]? = some size ∧ rightShape[pair.2]? = some size
  left : axes.leftOrder.Perm (List.range leftShape.length)
  right : axes.rightOrder.Perm (List.range rightShape.length)

def sizes (axes : ContractionAxes) (leftShape rightShape : List Nat) : ContractionSizes where
  batch := axes.batch.map fun pair => leftShape.getD pair.1 0
  rows := axes.leftFree.map fun axis => leftShape.getD axis 0
  inner := axes.summed.map fun pair => leftShape.getD pair.1 0
  columns := axes.rightFree.map fun axis => rightShape.getD axis 0

/-- The label of a right axis. -/
def partner (axes : ContractionAxes) (leftRank : Nat) : Assignment Nat :=
  Assignment.set (fun axis => leftRank + axis) ((axes.batch ++ axes.summed).map (·.2))
    ((axes.batch ++ axes.summed).map (·.1))

def rightLabels (axes : ContractionAxes) (leftRank rightRank : Nat) : List Nat :=
  (List.range rightRank).map (axes.partner leftRank)

/-- The size of a label: the left sizes come first. -/
def labelSize (leftShape rightShape : List Nat) (label : Nat) : Nat :=
  (leftShape ++ rightShape).getD label 0

section LabelSize

variable {leftShape rightShape : List Nat}

theorem labelSize_left {axis : Nat} (h : axis < leftShape.length) :
    labelSize leftShape rightShape axis = leftShape.getD axis 0 := List.getD_append _ _ _ _ h

theorem labelSize_right (axis : Nat) :
    labelSize leftShape rightShape (leftShape.length + axis) = rightShape.getD axis 0 := by
  rw [labelSize, List.getD_append_right _ _ _ _ (Nat.le_add_right _ _), Nat.add_sub_cancel_left]

theorem map_labelSize_range (leftShape rightShape : List Nat) :
    leftShape = (List.range leftShape.length).map (labelSize leftShape rightShape) := by
  refine List.ext_getElem (by simp) fun axis h _ => ?_
  simp [labelSize_left h, h]

end LabelSize

namespace Suits

variable {axes : ContractionAxes} {leftShape rightShape : List Nat}
  (suits : axes.Suits leftShape rightShape)

include suits

theorem nodup_right : axes.rightOrder.Nodup := suits.right.nodup_iff.2 List.nodup_range

theorem nodup_left : axes.leftOrder.Nodup := suits.left.nodup_iff.2 List.nodup_range

theorem left_lt {axis : Nat} (h : axis ∈ axes.leftOrder) : axis < leftShape.length :=
  List.mem_range.1 (suits.left.mem_iff.1 h)

theorem right_lt {axis : Nat} (h : axis ∈ axes.rightOrder) : axis < rightShape.length :=
  List.mem_range.1 (suits.right.mem_iff.1 h)

theorem partner_paired (leftRank : Nat) :
    ∀ pair ∈ axes.batch ++ axes.summed, axes.partner leftRank pair.2 = pair.1 := by
  have nodup : ((axes.batch ++ axes.summed).map (·.2)).Nodup := by
    rw [List.map_append]
    exact (List.nodup_append.1 suits.nodup_right).1
  have map : ((axes.batch ++ axes.summed).map (·.2)).map (axes.partner leftRank) =
      (axes.batch ++ axes.summed).map (·.1) := Assignment.map_set nodup (by simp)
  rw [List.map_map] at map
  exact List.map_inj_left.1 map

theorem partner_free (leftRank : Nat) :
    ∀ axis ∈ axes.rightFree, axes.partner leftRank axis = leftRank + axis := by
  intro axis free
  refine Assignment.set_of_notMem fun paired => ?_
  rw [List.map_append] at paired
  exact (List.nodup_append.1 suits.nodup_right).2.2 axis paired axis free rfl

theorem map_partner_paired (leftRank : Nat) {pairs : List (Nat × Nat)}
    (h : pairs ⊆ axes.batch ++ axes.summed) :
    (pairs.map (·.2)).map (axes.partner leftRank) = pairs.map (·.1) := by
  rw [List.map_map]
  exact List.map_congr_left fun pair hm => suits.partner_paired leftRank pair (h hm)

theorem map_partner_free (leftRank : Nat) :
    axes.rightFree.map (axes.partner leftRank) = axes.rightFree.map (leftRank + ·) :=
  List.map_congr_left (suits.partner_free leftRank)

theorem leftNames {order : List Nat} (h : order ⊆ axes.leftOrder) :
    Names (List.range leftShape.length) order order := by
  simpa using names_map_range id fun _ hm => suits.left_lt (h hm)

theorem rightNames {order : List Nat} (h : order ⊆ axes.rightOrder) :
    Names (axes.rightLabels leftShape.length rightShape.length) order
      (order.map (axes.partner leftShape.length)) :=
  names_map_range _ fun _ hm => suits.right_lt (h hm)

theorem named : AxesNamed axes (List.range leftShape.length)
    (axes.rightLabels leftShape.length rightShape.length) (axes.batch.map (·.1)) axes.leftFree
    (axes.summed.map (·.1)) (axes.rightFree.map (leftShape.length + ·)) where
  leftBatch := suits.leftNames fun _ hm => List.mem_append_left _ (List.mem_append_left _ hm)
  leftFree := suits.leftNames fun _ hm => List.mem_append_left _ (List.mem_append_right _ hm)
  leftInner := suits.leftNames fun _ hm => List.mem_append_right _ hm
  rightBatch := suits.map_partner_paired leftShape.length (List.subset_append_left _ _) ▸
    suits.rightNames fun _ hm => List.mem_append_left _ (List.mem_append_left _ hm)
  rightInner := suits.map_partner_paired leftShape.length (List.subset_append_right _ _) ▸
    suits.rightNames fun _ hm => List.mem_append_left _ (List.mem_append_right _ hm)
  rightFree := suits.map_partner_free leftShape.length ▸
    suits.rightNames fun _ hm => List.mem_append_right _ hm
  leftPerm := by simpa using suits.left
  rightPerm := by simpa [rightLabels] using suits.right
  separate _ hm := by
    obtain ⟨axis, -, rfl⟩ := List.mem_map.1 hm
    simp

/-- The labels of the free right axes are beyond those of the left axes. -/
theorem nodup_rightLabels : (axes.rightLabels leftShape.length rightShape.length).Nodup := by
  have paired : (axes.batch.map (·.1) ++ axes.summed.map (·.1)).Nodup :=
    suits.nodup_left.sublist ((List.sublist_append_left _ _).append_right _)
  have free : axes.rightFree.Nodup := (List.nodup_append.1 suits.nodup_right).2.1
  refine suits.named.rightLabels.nodup_iff.1 (List.nodup_append.2 ⟨paired,
    free.map fun _ _ => Nat.add_left_cancel, fun label hm label' hm' => ?_⟩)
  rintro rfl
  refine suits.named.separate label hm' (suits.named.leftLabels.mem_iff.1 ?_)
  simp only [List.mem_append] at hm ⊢
  exact hm.imp_left .inl

theorem labelSize_partner {axis : Nat} (h : axis < rightShape.length) :
    labelSize leftShape rightShape (axes.partner leftShape.length axis) =
      rightShape.getD axis 0 := by
  have listed := suits.right.mem_iff.2 (List.mem_range.2 h)
  rw [rightOrder, ← List.map_append, List.mem_append, List.mem_map] at listed
  -- a paired axis has the size of its left partner, a free one has its own
  rcases listed with ⟨pair, hm, rfl⟩ | free
  · obtain ⟨size, left, right⟩ := suits.paired pair hm
    rw [suits.partner_paired _ pair hm, labelSize_left (List.getElem?_eq_some_iff.1 left).1]
    simp [left, right]
  · rw [suits.partner_free _ axis free, labelSize_right]

theorem right_eq : rightShape =
    (axes.rightLabels leftShape.length rightShape.length).map (labelSize leftShape rightShape) := by
  refine List.ext_getElem (by simp [rightLabels]) fun axis h _ => ?_
  simp [rightLabels, suits.labelSize_partner h, h]

theorem sizes_eq : axes.sizes leftShape rightShape =
    .ofLabels (labelSize leftShape rightShape) (axes.batch.map (·.1)) axes.leftFree
      (axes.summed.map (·.1)) (axes.rightFree.map (leftShape.length + ·)) := by
  have left {axis : Nat} (h : axis ∈ axes.leftOrder) :
      leftShape.getD axis 0 = labelSize leftShape rightShape axis :=
    (labelSize_left (suits.left_lt h)).symm
  simp only [sizes, ContractionSizes.ofLabels, List.map_map, ContractionSizes.mk.injEq]
  refine ⟨?_, ?_, ?_, ?_⟩ <;> refine List.map_congr_left fun pair hm => ?_
  · exact left (List.mem_append_left _ (List.mem_append_left _ (List.mem_map_of_mem hm)))
  · exact left (List.mem_append_left _ (List.mem_append_right _ hm))
  · exact left (List.mem_append_right _ (List.mem_map_of_mem hm))
  · exact (labelSize_right pair).symm

end Suits

end ContractionAxes

namespace AxesNamed

variable {ι : Type} {axes : ContractionAxes} {L R batch rows inner columns : List ι}
  (named : AxesNamed axes L R batch rows inner columns)

include named

theorem nodup_result (leftNodup : L.Nodup) (rightNodup : R.Nodup) :
    (batch ++ rows ++ columns).Nodup := by
  have left := List.nodup_append.1 (named.leftLabels.nodup_iff.2 leftNodup)
  have right := List.nodup_append.1 (named.rightLabels.nodup_iff.2 rightNodup)
  refine List.nodup_append.2 ⟨left.1, right.2.1, fun c hc d hd => ?_⟩
  rintro rfl
  exact named.separate c hd (named.leftLabels.mem_iff.1 (List.mem_append_left _ hc))

variable [DecidableEq ι] {size : ι → Nat}

/-- The inner index `k` together with an assignment to the other labels reads both sides. -/
theorem indexAt_set_inner (leftNodup : L.Nodup) {x : Assignment ι}
    (hx : x.Within size (batch ++ rows ++ columns)) {k : List Nat}
    (hk : k ∈ indices (inner.map size)) :
    (x.set inner k).Within size L ∧ (x.set inner k).Within size R ∧
      indexAt axes.leftOrder (batch.map x ++ rows.map x ++ k) = L.map (x.set inner k) ∧
      indexAt axes.rightOrder (batch.map x ++ k ++ columns.map x) = R.map (x.set inner k) := by
  have valid := mem_indices.1 hk
  obtain ⟨place, hplace⟩ := Option.isSome_iff_exists.1 valid
  obtain ⟨below, rfl⟩ := unravel_of_offset? hplace
  have found := Assignment.map_set (x := x) (named.innerNodup leftNodup)
    (by simpa using length_of_isSome_offset? valid)
  obtain ⟨_, rfl, outside, leftWithin, rightWithin, -⟩ := named.set_inner leftNodup hx below
  -- the other labels keep their coordinates, so both orders put the index together
  refine ⟨(Assignment.within_perm named.leftLabels).1 leftWithin,
    (Assignment.within_perm named.rightLabels).1 rightWithin, ?_, ?_⟩
  · rw [← indexAt_map named.leftNames named.leftPerm, List.map_append, List.map_append, found,
      List.map_congr_left fun c hc => outside c (by simp [hc]),
      List.map_congr_left fun c hc => outside c (by simp [hc])]
  · rw [← indexAt_map named.rightNames named.rightPerm, List.map_append, List.map_append, found,
      List.map_congr_left fun c hc => outside c (by simp [hc]),
      List.map_congr_left fun c hc => outside c (by simp [hc])]

section Contracted

variable {α : Type} [CommSemiring α] {left right u : Tensor α}
  (hl : left.shape = L.map size) (hr : right.shape = R.map size)
  (leftNodup : L.Nodup) (rightNodup : R.Nodup)
  (made : Tensor.contracted? left right axes (.ofLabels size batch rows inner columns) = some u)

include hl hr leftNodup rightNodup made

theorem shape_contracted : u.shape = (batch ++ rows ++ columns).map size := by
  obtain ⟨v, hv, shape, -⟩ := Tensor.contracted?_spec named hl hr leftNodup rightNodup
  rwa [Option.some.inj (made.symm.trans hv)]

/-- The entries of a contraction, each with the indices that it reads. -/
theorem entries_contracted {b m n : List Nat} (hb : b ∈ indices (batch.map size))
    (hm : m ∈ indices (rows.map size)) (hn : n ∈ indices (columns.map size)) :
    ∃ l r : List Nat → α, (∀ k ∈ indices (inner.map size),
        left.get? (indexAt axes.leftOrder (b ++ m ++ k)) = some (l k) ∧
        right.get? (indexAt axes.rightOrder (b ++ k ++ n)) = some (r k)) ∧
      u.get? (b ++ m ++ n) = some ((indices (inner.map size)).map fun k => l k * r k).sum := by
  obtain ⟨x, hx, rfl, rfl, rfl⟩ :=
    exists_map_eq_three (named.nodup_result leftNodup rightNodup) hb hm hn
  refine ⟨fun k => left.entry L (x.set inner k), fun k => right.entry R (x.set inner k),
    fun k hk => ?_, ?_⟩
  · obtain ⟨leftWithin, rightWithin, leftIndex, rightIndex⟩ :=
      named.indexAt_set_inner leftNodup hx hk
    rw [leftIndex, rightIndex]
    exact ⟨Tensor.get?_eq_some_entry hl leftWithin, Tensor.get?_eq_some_entry hr rightWithin⟩
  · have shape := named.shape_contracted hl hr leftNodup rightNodup made
    rw [← List.map_append, ← List.map_append, Tensor.get?_eq_some_entry shape hx,
      Tensor.contracted?_entry named hl hr leftNodup rightNodup made, marginal_eq_sum_indices]

end Contracted

end AxesNamed

namespace Tensor

variable {α : Type}

/-- The entries of `u` are the products of both sides, summed. A batch index `b`, a left index
`m` and a right index `n` name the entry and fix the coordinates of all axes but the summed
ones, which run over the indices `k`. -/
structure IsContraction [CommSemiring α] (u left right : Tensor α) (axes : ContractionAxes) :
    Prop where
  shape : u.shape = (axes.sizes left.shape right.shape).result
  entry : ∀ b ∈ indices (axes.sizes left.shape right.shape).batch,
    ∀ m ∈ indices (axes.sizes left.shape right.shape).rows,
    ∀ n ∈ indices (axes.sizes left.shape right.shape).columns, ∃ l r : List Nat → α,
      (∀ k ∈ indices (axes.sizes left.shape right.shape).inner,
        left.get? (indexAt axes.leftOrder (b ++ m ++ k)) = some (l k) ∧
        right.get? (indexAt axes.rightOrder (b ++ k ++ n)) = some (r k)) ∧
      u.get? (b ++ m ++ n) =
        some ((indices (axes.sizes left.shape right.shape).inner).map fun k => l k * r k).sum

section Suits

variable {left right : Tensor α} {axes : ContractionAxes}
  (suits : axes.Suits left.shape right.shape)

include suits

theorem isContraction_contracted [CommSemiring α] {u : Tensor α}
    (made : contracted? left right axes (axes.sizes left.shape right.shape) = some u) :
    u.IsContraction left right axes := by
  have hl := ContractionAxes.map_labelSize_range left.shape right.shape
  have hr := suits.right_eq
  have nodup := suits.nodup_rightLabels
  rw [suits.sizes_eq] at made
  refine ⟨?_, fun b hb m hm n hn => ?_⟩
  · rw [suits.sizes_eq, ContractionSizes.result_ofLabels]
    exact suits.named.shape_contracted hl hr List.nodup_range nodup made
  · rw [suits.sizes_eq] at hb hm hn ⊢
    exact suits.named.entries_contracted hl hr List.nodup_range nodup made hb hm hn

theorem contract_eq_ok [CommSemiring α]
    (addressable : isAddressable (axes.sizes left.shape right.shape).result) :
    ∃ u, left.contract right axes = .ok u ∧ u.IsContraction left right axes := by
  have hl := ContractionAxes.map_labelSize_range left.shape right.shape
  rw [suits.sizes_eq, ContractionSizes.result_ofLabels] at addressable
  obtain ⟨u, hu, made, -⟩ := contract_spec suits.named hl suits.right_eq List.nodup_range
    suits.nodup_rightLabels addressable
  rw [← suits.sizes_eq] at made
  exact ⟨u, hu, isContraction_contracted suits made⟩

theorem contract_eq_error [CommSemiring α]
    (oversized : ¬isAddressable (axes.sizes left.shape right.shape).result) :
    left.contract right axes =
      .error (if isAddressable (axes.sizes left.shape right.shape).block then
        .backend .oversizedResult else .fault .oversizedProduct) := by
  have hl := ContractionAxes.map_labelSize_range left.shape right.shape
  rw [contract_eq suits.named hl suits.right_eq, ← suits.sizes_eq,
    ContractionSizes.requireAddressable, if_neg oversized]
  split <;> rfl

end Suits

theorem requirePairs_cases (leftShape rightShape : List Nat) (pairs : List (Nat × Nat)) :
    ((∀ pair ∈ pairs, ∃ size, leftShape[pair.1]? = some size ∧ rightShape[pair.2]? = some size) ∧
      requirePairs leftShape rightShape pairs = .ok ()) ∨
    ∃ problem, requirePairs leftShape rightShape pairs = .error (.backend problem) := by
  induction pairs with
  | nil => exact .inl ⟨by simp, rfl⟩
  | cons pair pairs ih =>
    cases left : leftShape[pair.1]? with
    | none => exact .inr ⟨_, by rw [requirePairs, left]⟩
    | some size =>
      cases right : rightShape[pair.2]? with
      | none => exact .inr ⟨_, by rw [requirePairs, left, right]⟩
      | some size' =>
        by_cases same : size = size'
        · rw [requirePairs, left, right]
          simp only [if_pos same, List.forall_mem_cons]
          exact ih.imp_left fun paired => ⟨⟨⟨size, left, same ▸ right⟩, paired.1⟩, paired.2⟩
        · exact .inr ⟨_, by rw [requirePairs, left, right]; exact if_neg same⟩

theorem exists_contract_eq_error [CommSemiring α] {left right : Tensor α} {axes : ContractionAxes}
    (unsuited : ¬axes.Suits left.shape right.shape) :
    ∃ problem, left.contract right axes = .error (.backend problem) := by
  rw [contract]
  obtain ⟨paired, pairs⟩ | ⟨problem, pairs⟩ :=
    requirePairs_cases left.shape right.shape (axes.batch ++ axes.summed)
  · rw [pairs]
    by_cases leftPerm : axes.leftOrder.Perm (List.range left.rank)
    · rw [requirePermutation_of_perm leftPerm]
      by_cases rightPerm : axes.rightOrder.Perm (List.range right.rank)
      · exact absurd ⟨paired, leftPerm, rightPerm⟩ unsuited
      · rw [requirePermutation_of_not_perm rightPerm]
        exact ⟨_, rfl⟩
    · rw [requirePermutation_of_not_perm leftPerm]
      exact ⟨_, rfl⟩
  · rw [pairs]
    exact ⟨problem, rfl⟩

theorem suits_of_contract [CommSemiring α] {left right u : Tensor α} {axes : ContractionAxes}
    (hu : left.contract right axes = .ok u) : axes.Suits left.shape right.shape ∧
      isAddressable (axes.sizes left.shape right.shape).result := by
  have suits : axes.Suits left.shape right.shape := by
    by_contra unsuited
    obtain ⟨problem, refused⟩ := exists_contract_eq_error unsuited
    cases hu.symm.trans refused
  refine ⟨suits, ?_⟩
  by_contra oversized
  cases hu.symm.trans (contract_eq_error suits oversized)

/-- A contraction succeeds just if the axes suit both shapes and the result can be addressed,
and then has as its entries the sums of products that the axes describe. Axes that do not
suit are refused. So is a result that cannot be addressed although the three axes of the
product can. -/
theorem contract_sums_products [CommSemiring α] (left right : Tensor α) (axes : ContractionAxes) :
    ((∃ u, left.contract right axes = .ok u) ↔ axes.Suits left.shape right.shape ∧
      isAddressable (axes.sizes left.shape right.shape).result) ∧
    (∀ u, left.contract right axes = .ok u → u.IsContraction left right axes) ∧
    (¬axes.Suits left.shape right.shape →
      ∃ problem, left.contract right axes = .error (.backend problem)) ∧
    (axes.Suits left.shape right.shape →
      ¬isAddressable (axes.sizes left.shape right.shape).result →
      isAddressable (axes.sizes left.shape right.shape).block →
      left.contract right axes = .error (.backend .oversizedResult)) := by
  refine ⟨⟨fun ⟨_, hu⟩ => suits_of_contract hu, fun ⟨suits, addressable⟩ => ?_⟩, fun u hu => ?_,
    exists_contract_eq_error, fun suits oversized block => ?_⟩
  · obtain ⟨u, hu, -⟩ := contract_eq_ok suits addressable
    exact ⟨u, hu⟩
  · obtain ⟨suits, addressable⟩ := suits_of_contract hu
    obtain ⟨v, hv, contraction⟩ := contract_eq_ok suits addressable
    obtain rfl : u = v := Except.ok.inj (hu.symm.trans hv)
    exact contraction
  · rw [contract_eq_error suits oversized, if_pos block]

/-- The product of two matrices. -/
theorem contract_sums_products_matrices :
    let left : Tensor Nat := ⟨[2, 2], #[1, 2, 3, 4], rfl⟩
    let right : Tensor Nat := ⟨[2, 2], #[5, 6, 7, 8], rfl⟩
    let axes : ContractionAxes := ⟨[], [(1, 0)], [0], [1]⟩
    axes.Suits left.shape right.shape ∧
      isAddressable (axes.sizes left.shape right.shape).result ∧
      ∃ u, left.contract right axes = .ok u ∧ u.shape = [2, 2] ∧ u.get? [1, 0] = some 43 := by
  intro left right axes
  have suits : axes.Suits left.shape right.shape := ⟨by decide, by decide, by decide⟩
  have addressable : isAddressable (axes.sizes left.shape right.shape).result := by decide
  obtain ⟨accepts, contracts, -⟩ := contract_sums_products left right axes
  obtain ⟨u, hu⟩ := accepts.2 ⟨suits, addressable⟩
  obtain ⟨shape, entry⟩ := contracts u hu
  obtain ⟨l, r, reads, sum⟩ := entry [] (by decide) [1] (by decide) [0] (by decide)
  have first : some 3 = some (l [0]) ∧ some 5 = some (r [0]) := reads [0] (by decide)
  have second : some 4 = some (l [1]) ∧ some 7 = some (r [1]) := reads [1] (by decide)
  have products : u.get? [1, 0] = some (l [0] * r [0] + (l [1] * r [1] + 0)) := sum
  simp only [Option.some.injEq] at first second
  refine ⟨suits, addressable, u, hu, shape, ?_⟩
  rw [products, ← first.1, ← first.2, ← second.1, ← second.2]

/-- Suitable axes do not suffice: the left and the right side are empty, but the steps along
the other axes of the result do not fit a word. -/
theorem not_contract_of_suits :
    let left : Tensor Nat := ⟨[0, 2 ^ 32], #[], rfl⟩
    let right : Tensor Nat := ⟨[2 ^ 32, 0], #[], rfl⟩
    let axes : ContractionAxes := ⟨[], [], [0, 1], [0, 1]⟩
    axes.Suits left.shape right.shape ∧
      left.contract right axes = .error (.backend .oversizedResult) := by
  intro left right axes
  exact ⟨⟨by decide, by decide, by decide⟩, rfl⟩

end Tensor

end Einsum
