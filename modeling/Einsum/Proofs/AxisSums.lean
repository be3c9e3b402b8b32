import Einsum.Proofs.AxisGroups
import Einsum.Proofs.IndexFormula

/-! Sums over any list of axes.
A list names axes in any order and as often as it likes. The axes that it names are summed,
once each, and the others keep their order; an axis moves down by the number of summed axes
before it. So two sums one after the other, the second over renumbered axes, are one sum over
the axes of both lists.
For the proof every axis carries its own number as its label. -/

namespace Einsum

/-- The axes that a list names, upwards. -/
def namedAxes (rank : Nat) (axes : List Nat) : List Nat := (List.range rank).filter (· ∈ axes)

/-- The axes that a list leaves out, upwards. -/
def otherAxes (rank : Nat) (axes : List Nat) : List Nat := (List.range rank).filter (· ∉ axes)

/-- The number of an axis once the listed axes are gone. -/
def renumbered (gone : List Nat) (axis : Nat) : Nat := (List.range axis).countP (· ∉ gone)

section Axes

variable {rank axis : Nat} {axes first second : List Nat}

theorem mem_namedAxes : axis ∈ namedAxes rank axes ↔ axis < rank ∧ axis ∈ axes := by
  simp [namedAxes]

theorem mem_otherAxes : axis ∈ otherAxes rank axes ↔ axis < rank ∧ axis ∉ axes := by
  simp [otherAxes]

theorem nodup_namedAxes (rank : Nat) (axes : List Nat) : (namedAxes rank axes).Nodup :=
  List.nodup_range.filter _

theorem nodup_otherAxes (rank : Nat) (axes : List Nat) : (otherAxes rank axes).Nodup :=
  List.nodup_range.filter _

theorem otherAxes_append_namedAxes (rank : Nat) (axes : List Nat) :
    (otherAxes rank axes ++ namedAxes rank axes).Perm (List.range rank) := by
  refine List.perm_append_comm.trans ?_
  simpa [namedAxes, otherAxes] using List.filter_append_perm (fun axis => decide (axis ∈ axes)) (List.range rank)

theorem length_otherAxes (rank : Nat) (gone : List Nat) :
    (otherAxes rank gone).length = renumbered gone rank := List.countP_eq_length_filter.symm

theorem renumbered_le {gone : List Nat} {a b : Nat} (h : a ≤ b) :
    renumbered gone a ≤ renumbered gone b :=
  (List.range_sublist.2 h).countP_le

/-- An axis that stays is found at its new number. -/
theorem getElem?_otherAxes (below : axis < rank) (stays : axis ∉ axes) :
    (otherAxes rank axes)[renumbered axes axis]? = some axis := by
  induction rank with
  | zero => omega
  | succ rank ih =>
    rw [otherAxes, List.range_succ, List.filter_append, ← otherAxes]
    rcases Nat.lt_succ_iff_lt_or_eq.1 below with before | rfl
    · have found := ih before
      rw [List.getElem?_append_left (List.getElem?_eq_some_iff.1 found).1, found]
    · rw [← length_otherAxes, List.getElem?_append_right (Nat.le_refl _)]
      simp [stays]

theorem otherAxes_append (rank : Nat) (first second : List Nat) :
    (otherAxes rank first).filter (· ∉ namedAxes rank second) =
      otherAxes rank (first ++ second) := by
  rw [otherAxes, otherAxes, List.filter_filter]
  refine List.filter_congr fun axis hm => ?_
  have below := List.mem_range.1 hm
  simp [mem_namedAxes, below, Bool.and_comm]

theorem namedAxes_append (rank : Nat) (disjoint : first.Disjoint second) :
    (namedAxes rank second ++ namedAxes rank first).Perm (namedAxes rank (first ++ second)) := by
  have apart : (namedAxes rank second ++ namedAxes rank first).Nodup := by
    refine List.nodup_append.2 ⟨nodup_namedAxes rank second, nodup_namedAxes rank first, ?_⟩
    rintro axis hs _ hf rfl
    exact disjoint (mem_namedAxes.1 hf).2 (mem_namedAxes.1 hs).2
  refine (List.perm_ext_iff_of_nodup apart (nodup_namedAxes _ _)).2 fun axis => ?_
  simp only [List.mem_append, mem_namedAxes]
  tauto

/-- Among the axes that stay, the renumbered ones are those of the second list. -/
theorem mem_map_renumbered_iff (disjoint : first.Disjoint second)
    (below : ∀ axis ∈ second, axis < rank) {place : Nat}
    (found : (otherAxes rank first)[place]? = some axis) :
    place ∈ second.map (renumbered first) ↔ axis ∈ namedAxes rank second := by
  have stays := mem_otherAxes.1 (List.mem_of_getElem? found)
  constructor
  · intro hm
    obtain ⟨other, ho, rfl⟩ := List.mem_map.1 hm
    have same := getElem?_otherAxes (below other ho) fun hf => disjoint hf ho
    obtain rfl : axis = other := Option.some.inj (found.symm.trans same)
    exact mem_namedAxes.2 ⟨stays.1, ho⟩
  · intro hm
    refine List.mem_map.2 ⟨axis, (mem_namedAxes.1 hm).2, ?_⟩
    have same := getElem?_otherAxes stays.1 stays.2
    exact (List.getElem?_inj (List.getElem?_eq_some_iff.1 same).1 (nodup_otherAxes rank first)).1
      (same.trans found.symm)

end Axes

namespace Tensor

variable {α : Type} {axes first second : List Nat}

/-- The sizes of the listed axes. -/
def sizesOf (t : Tensor α) (axes : List Nat) : List Nat := axes.map fun axis => t.shape.getD axis 0

theorem shape_eq_sizesOf (t : Tensor α) : t.shape = t.sizesOf (List.range t.rank) :=
  (AxisGroups.map_getD_range t.shape).symm

/-- Tensors with the same entries under the labels of their axes are the same. -/
theorem eq_of_entry {ι : Type} [DecidableEq ι] [Zero α] {size : ι → Nat} {labels : List ι}
    (nodup : labels.Nodup) {t u : Tensor α} (ht : t.shape = labels.map size)
    (hu : u.shape = labels.map size) (same : t.entry labels = u.entry labels) : t = u := by
  refine eq_of_get? (ht.trans hu.symm) fun index hi => ?_
  obtain ⟨x, hx, rfl⟩ := exists_map_eq nodup (ht ▸ hi)
  rw [get?_eq_some_entry ht hx, get?_eq_some_entry hu hx, same]

/-- The entries of `u` are those of `t`, summed over the coordinates of the named axes. An index
of `u` gives the other axes their coordinates, in order. -/
structure IsSum [AddCommMonoid α] (u t : Tensor α) (axes : List Nat) : Prop where
  shape : u.shape = t.sizesOf (otherAxes t.rank axes)
  entry : ∀ index ∈ indices u.shape, ∃ read : List Nat → α,
    (∀ k ∈ indices (t.sizesOf (namedAxes t.rank axes)),
      t.get? (indexAt (otherAxes t.rank axes ++ namedAxes t.rank axes) (index ++ k)) =
        some (read k)) ∧
    u.get? index = some ((indices (t.sizesOf (namedAxes t.rank axes))).map read).sum

theorem head?_descending {largest : Nat} (hm : largest ∈ axes)
    (max : ∀ axis ∈ axes, axis ≤ largest) : (descending axes).head? = some largest := by
  have sorted := pairwise_descending axes
  cases h : descending axes with
  | nil => simpa [h] using mem_descending.2 hm
  | cons head rest =>
    have bound := max head (mem_descending.1 (h ▸ List.mem_cons_self))
    rw [h] at sorted
    rcases List.mem_cons.1 (h ▸ mem_descending.2 hm) with rfl | later
    · rfl
    · have := (List.pairwise_cons.1 sorted).1 largest later
      omega

theorem exists_largest (nonempty : axes ≠ []) :
    ∃ largest ∈ axes, ∀ axis ∈ axes, axis ≤ largest := by
  obtain ⟨largest, h⟩ := Option.isSome_iff_exists.1 (List.isSome_max?_iff.2 nonempty)
  exact ⟨largest, List.max?_eq_some_iff.1 h⟩

section Refused

variable [Zero α] [Add α] {t : Tensor α}

theorem sumOver_eq_error {largest : Nat} (hm : largest ∈ axes)
    (max : ∀ axis ∈ axes, axis ≤ largest) (above : t.rank ≤ largest) :
    t.sumOver axes = .error (.backend (.reductionAxis largest t.rank)) := by
  rw [sumOver, ← descending, head?_descending hm max]
  exact if_pos above

theorem exists_sumOver_eq_error {axis : Nat} (hm : axis ∈ axes) (above : t.rank ≤ axis) :
    ∃ problem, t.sumOver axes = .error (.backend problem) := by
  obtain ⟨largest, hl, max⟩ := exists_largest (List.ne_nil_of_mem hm)
  exact ⟨_, sumOver_eq_error hl max (Nat.le_trans above (max axis hm))⟩

end Refused

section Summed

variable [AddCommMonoid α] {t u : Tensor α}

/-- A sum by the numbers of the axes. -/
theorem sumOver_eq_ok (t : Tensor α) (below : ∀ axis ∈ axes, axis < t.rank) :
    ∃ u, t.sumOver axes = .ok u ∧ u.shape = t.sizesOf (otherAxes t.rank axes) ∧
      u.entry (otherAxes t.rank axes) =
        marginal (fun axis => t.shape.getD axis 0) (namedAxes t.rank axes)
          (t.entry (List.range t.rank)) := by
  have carries : ∀ (place axis : Nat), (List.range t.rank)[place]? = some axis →
      (place ∈ axes ↔ axis ∈ namedAxes t.rank axes) := by
    intro place axis found
    obtain ⟨hlt, rfl⟩ : place < t.rank ∧ place = axis := by
      simpa [List.getElem?_eq_some_iff] using found
    simp [mem_namedAxes, hlt]
  have others : (List.range t.rank).filter (· ∉ namedAxes t.rank axes) = otherAxes t.rank axes := by
    simpa [otherAxes] using otherAxes_append t.rank [] axes
  have below : ∀ axis ∈ axes, axis < (List.range t.rank).length := by simpa using below
  obtain ⟨u, hu, shape⟩ := sumOver_spec t.shape_eq_sizesOf List.nodup_range below carries
  have entry := sumOver_entry t.shape_eq_sizesOf List.nodup_range below carries
    (nodup_namedAxes t.rank axes) List.filter_sublist.subset hu
  rw [others] at shape entry
  exact ⟨u, hu, shape, entry⟩

theorem isSum_of_entry (shape : u.shape = t.sizesOf (otherAxes t.rank axes))
    (entry : u.entry (otherAxes t.rank axes) =
      marginal (fun axis => t.shape.getD axis 0) (namedAxes t.rank axes)
        (t.entry (List.range t.rank))) : u.IsSum t axes where
  shape := shape
  entry index hi := by
    have perm := otherAxes_append_namedAxes t.rank axes
    have nodup := perm.nodup_iff.2 List.nodup_range
    obtain ⟨x, hx, rfl⟩ := exists_map_eq (nodup_otherAxes t.rank axes) (shape ▸ mem_indices.1 hi)
    refine ⟨fun k => t.entry (List.range t.rank) (x.set (namedAxes t.rank axes) k), fun k hk => ?_, ?_⟩
    · have valid := mem_indices.1 hk
      -- the coordinates of the other axes stay as they are
      have outside : (otherAxes t.rank axes).map (x.set (namedAxes t.rank axes) k) =
          (otherAxes t.rank axes).map x := List.map_congr_left fun axis hm =>
        Assignment.set_of_notMem fun named => (List.nodup_append.1 nodup).2.2 axis hm axis named rfl
      have inside : (namedAxes t.rank axes).map (x.set (namedAxes t.rank axes) k) = k :=
        Assignment.map_set (nodup_namedAxes t.rank axes)
          (by simpa [sizesOf] using length_of_isSome_offset? valid)
      have names : Names (List.range t.rank) (otherAxes t.rank axes ++ namedAxes t.rank axes)
          (otherAxes t.rank axes ++ namedAxes t.rank axes) := by
        simpa using names_map_range id fun axis hm => List.mem_range.1 (perm.mem_iff.1 hm)
      have index := indexAt_map names (by simpa using perm) (x.set (namedAxes t.rank axes) k)
      rw [List.map_append, outside, inside] at index
      rw [index]
      refine get?_eq_some_entry t.shape_eq_sizesOf ((Assignment.within_perm perm).1 ?_)
      rw [Assignment.within_append_iff, ← isSome_offset?_map_iff, ← isSome_offset?_map_iff, outside,
        inside]
      exact ⟨isSome_offset?_map_iff.2 hx, valid⟩
    · rw [get?_eq_some_entry shape hx, entry, marginal_eq_sum_indices]
      rfl

/-- Summing over some axes and then over others, renumbered, is one sum. -/
theorem sumOver_sumOver (t : Tensor α) (disjoint : first.Disjoint second)
    (below : ∀ axis ∈ first ++ second, axis < t.rank) :
    (do let u ← t.sumOver first; u.sumOver (second.map (renumbered first))) =
      t.sumOver (first ++ second) := by
  obtain ⟨belowFirst, belowSecond⟩ := List.forall_mem_append.1 below
  let size (axis : Nat) : Nat := t.shape.getD axis 0
  obtain ⟨u, hu, shape, entry⟩ := t.sumOver_eq_ok belowFirst
  obtain ⟨v, hv, shape_v, entry_v⟩ := t.sumOver_eq_ok below
  have shape : u.shape = (otherAxes t.rank first).map size := shape
  have nodup := nodup_otherAxes t.rank first
  have carries : ∀ (place axis : Nat), (otherAxes t.rank first)[place]? = some axis →
      (place ∈ second.map (renumbered first) ↔ axis ∈ namedAxes t.rank second) :=
    fun place axis found => mem_map_renumbered_iff disjoint belowSecond found
  have stay (axis : Nat) (hm : axis ∈ second) : axis ∉ first := fun hf => disjoint hf hm
  have below' : ∀ place ∈ second.map (renumbered first),
      place < (otherAxes t.rank first).length := by
    intro place hm
    obtain ⟨axis, ha, rfl⟩ := List.mem_map.1 hm
    exact (List.getElem?_eq_some_iff.1 (getElem?_otherAxes (belowSecond axis ha) (stay axis ha))).1
  have subset : namedAxes t.rank second ⊆ otherAxes t.rank first := fun axis hm => by
    obtain ⟨hlt, hs⟩ := mem_namedAxes.1 hm
    exact mem_otherAxes.2 ⟨hlt, stay axis hs⟩
  obtain ⟨w, hw, shape_w⟩ := sumOver_spec shape nodup below' carries
  have entry_w := sumOver_entry shape nodup below' carries
    (nodup_namedAxes t.rank second) subset hw
  rw [otherAxes_append] at shape_w entry_w
  rw [entry, ← marginal_append, marginal_perm (namedAxes_append t.rank disjoint), ← entry_v] at entry_w
  obtain rfl : w = v := eq_of_entry (nodup_otherAxes _ _) shape_w shape_v entry_w
  rw [hu, hv]
  exact hw

/-- An axis beyond the rank is beyond it also after renumbering. -/
theorem exists_sumOver_sumOver_eq_error {axis : Nat} (hm : axis ∈ first ++ second)
    (above : t.rank ≤ axis) :
    ∃ problem, (do let u ← t.sumOver first; u.sumOver (second.map (renumbered first))) =
      .error (.backend problem) := by
  by_cases belowFirst : ∀ axis ∈ first, axis < t.rank
  · obtain ⟨u, hu, shape, -⟩ := t.sumOver_eq_ok belowFirst
    have second_mem : axis ∈ second := (List.mem_append.1 hm).resolve_left fun hf => by
      have := belowFirst axis hf
      omega
    have rank : u.rank = renumbered first t.rank := by
      rw [Tensor.rank, shape, sizesOf, List.length_map, length_otherAxes]
    obtain ⟨problem, refused⟩ := exists_sumOver_eq_error (t := u)
      (List.mem_map_of_mem (f := renumbered first) second_mem) (rank ▸ renumbered_le above)
    exact ⟨problem, by rw [hu]; exact refused⟩
  · obtain ⟨other, ho⟩ := not_forall.1 belowFirst
    obtain ⟨hf, hother⟩ := Classical.not_imp.1 ho
    obtain ⟨problem, refused⟩ := exists_sumOver_eq_error (t := t) hf (Nat.le_of_not_lt hother)
    exact ⟨problem, by rw [refused]; rfl⟩

end Summed

/-- A sum is refused just if the list names an axis that the tensor has not, and the largest
such axis is reported. Otherwise each named axis is summed once. Summing over nothing changes
nothing, and summing over some axes and then over others is one sum over all of them. -/
theorem sumOver_any_axes [AddCommMonoid α] (t : Tensor α) (axes : List Nat) :
    ((∃ problem, t.sumOver axes = .error (.backend problem)) ↔ ∃ axis ∈ axes, t.rank ≤ axis) ∧
    (∀ largest ∈ axes, (∀ axis ∈ axes, axis ≤ largest) → t.rank ≤ largest →
      t.sumOver axes = .error (.backend (.reductionAxis largest t.rank))) ∧
    ((∀ axis ∈ axes, axis < t.rank) → ∃ u, t.sumOver axes = .ok u ∧ u.IsSum t axes) ∧
    t.sumOver [] = .ok t ∧
    ∀ first second : List Nat, first.Disjoint second →
      ((∀ axis ∈ first ++ second, axis < t.rank) →
        (do let u ← t.sumOver first; u.sumOver (second.map (renumbered first))) =
          t.sumOver (first ++ second)) ∧
      ((∃ axis ∈ first ++ second, t.rank ≤ axis) → ∃ problem problem',
        (do let u ← t.sumOver first; u.sumOver (second.map (renumbered first))) =
          .error (.backend problem) ∧
        t.sumOver (first ++ second) = .error (.backend problem')) := by
  have succeeds (below : ∀ axis ∈ axes, axis < t.rank) :
      ∃ u, t.sumOver axes = .ok u ∧ u.IsSum t axes := by
    obtain ⟨u, hu, shape, entry⟩ := t.sumOver_eq_ok below
    exact ⟨u, hu, isSum_of_entry shape entry⟩
  refine ⟨⟨fun ⟨problem, refused⟩ => ?_, fun ⟨axis, hm, above⟩ => exists_sumOver_eq_error hm above⟩,
    fun largest hm max above => sumOver_eq_error hm max above, succeeds, by simp [sumOver],
    fun first second disjoint => ⟨t.sumOver_sumOver disjoint, fun ⟨axis, hm, above⟩ => ?_⟩⟩
  · by_contra inside
    push Not at inside
    obtain ⟨u, hu, -⟩ := succeeds inside
    cases hu.symm.trans refused
  · obtain ⟨problem, refused⟩ := exists_sumOver_sumOver_eq_error hm above
    obtain ⟨problem', refused'⟩ := exists_sumOver_eq_error (t := t) hm above
    exact ⟨problem, problem', refused, refused'⟩

/-- The first axis of two, named twice, and then the other one under its new number. -/
theorem sumOver_any_axes_rows :
    let t : Tensor Nat := ⟨[2, 3], #[0, 1, 2, 3, 4, 5], rfl⟩
    (∀ axis ∈ [0, 0], axis < t.rank) ∧ [0].Disjoint [1] ∧
      (∃ u, t.sumOver [0, 0] = .ok u ∧ u.shape = [3] ∧ u.get? [1] = some (1 + (4 + 0))) ∧
      (do let u ← t.sumOver [0]; u.sumOver [0]) = t.sumOver [0, 1] := by
  intro t
  have below : ∀ axis ∈ [0, 0], axis < t.rank := by decide
  have disjoint : [0].Disjoint [1] := by simp
  obtain ⟨-, -, succeeds, -, sums⟩ := sumOver_any_axes t [0, 0]
  obtain ⟨u, hu, shape, entry⟩ := succeeds below
  have shape : u.shape = [3] := shape
  obtain ⟨read, reads, sum⟩ := entry [1] (by rw [shape]; decide)
  have upper : some 1 = some (read [0]) := reads [0] (by decide)
  have lower : some 4 = some (read [1]) := reads [1] (by decide)
  have total : u.get? [1] = some (read [0] + (read [1] + 0)) := sum
  simp only [Option.some.injEq] at upper lower
  refine ⟨below, disjoint, ⟨u, hu, shape, ?_⟩, (sums [0] [1] disjoint).1 (by decide)⟩
  rw [total, ← upper, ← lower]

end Tensor

end Einsum
