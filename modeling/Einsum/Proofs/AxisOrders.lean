import Einsum.Proofs.AxisSums

/-! Axes in another order.
A list is an order of the axes of a tensor if it names each of them once, and the check of a list
accepts just the orders, without ever looking for a mark that is not there. Axis `k` of the result
is the axis that the list has at place `k`. Hence an order `second` of axes that stand in the order
`first` already is the order `first[second[k]]` of the axes themselves, and the order that tells
where each axis stands undoes `first`. -/

namespace Einsum

/-- The marks as the check reads them, below the rank only. There is no answer once a mark is read
that is not there. -/
def readMarks? (rank : Nat) (marks : List Bool) : List Nat → Option Bool
  | [] => some true
  | axis :: rest =>
    if rank ≤ axis then some false
    else
      match marks[axis]? with
      | none => none
      | some true => some false
      | some false => readMarks? rank (marks.set axis true) rest

/-- Setting a mark keeps their number, so that an axis below the rank has its mark at any time. -/
theorem readMarks?_eq {rank : Nat} {marks : List Bool} (length : marks.length = rank)
    (axes : List Nat) : readMarks? rank marks axes = some (marksOnce marks axes) := by
  induction axes generalizing marks with
  | nil => rfl
  | cons axis axes ih =>
    rw [readMarks?, marksOnce]
    by_cases above : rank ≤ axis
    · rw [if_pos above, List.getElem?_eq_none (by omega)]
    · rw [if_neg above]
      have found : marks[axis]? = some marks[axis] := List.getElem?_eq_getElem (by omega)
      cases mark : marks[axis] with
      | true => rw [found, mark]
      | false =>
        rw [found, mark]
        exact ih (by rw [List.length_set, length])

/-- The order `second` of axes that stand in the order `first`. -/
def reordered (first second : List Nat) : List Nat := second.map fun k => first.getD k 0

/-- Where each axis stands in an order. -/
def undone (axes : List Nat) : List Nat := (List.range axes.length).map fun axis => axes.idxOf axis

section Orders

variable {rank : Nat} {axes first second : List Nat}

theorem nodup_of_order (order : axes.Perm (List.range rank)) : axes.Nodup :=
  order.nodup_iff.2 List.nodup_range

theorem lt_of_mem_order (order : axes.Perm (List.range rank)) : ∀ axis ∈ axes, axis < rank :=
  fun _ hm => List.mem_range.1 (order.mem_iff.1 hm)

theorem length_order (order : axes.Perm (List.range rank)) : axes.length = rank := by
  simpa using order.length_eq

theorem names_reordered (below : ∀ k ∈ second, k < first.length) :
    Names first second (reordered first second) := by
  have names := names_map_range (fun k => first.getD k 0) below
  rwa [AxisGroups.map_getD_range] at names

theorem reordered_perm (h : first.Perm (List.range rank)) (h' : second.Perm (List.range rank)) :
    (reordered first second).Perm (List.range rank) := by
  rw [← length_order h] at h'
  exact ((names_reordered (lt_of_mem_order h')).perm h').trans h

theorem undone_perm (order : axes.Perm (List.range rank)) : (undone axes).Perm (List.range rank) := by
  have length := length_order order
  have perm := map_idxOf_perm (nodup_of_order order) (length ▸ order.symm)
  exact length ▸ perm

theorem reordered_undone (order : axes.Perm (List.range rank)) :
    reordered axes (undone axes) = List.range rank := by
  rw [reordered, undone, length_order order, List.map_map]
  refine (List.map_congr_left fun axis hm => ?_).trans (List.map_id _)
  have found := List.getElem?_idxOf (order.mem_iff.2 hm)
  rw [Function.comp_apply, List.getD_eq_getElem?_getD, found]
  rfl

end Orders

namespace Tensor

variable {α : Type} {t u : Tensor α} {axes first second : List Nat}

/-- Axis `k` of `u` is axis `axes[k]` of `t`: it has the size of that one, and an index of `u`
reads the entry of `t` with coordinate `index[k]` along it. -/
structure IsPermuted (u t : Tensor α) (axes : List Nat) : Prop where
  shape : ∀ k : Nat, u.shape[k]? = axes[k]?.bind fun axis => t.shape[axis]?
  entry : ∀ index, (offset? u.shape index).isSome → ∃ (source : List Nat) (value : α),
    (∀ k : Nat, index[k]? = axes[k]?.bind fun axis => source[axis]?) ∧
    t.get? source = some value ∧ u.get? index = some value

theorem permute_eq_error (t : Tensor α) (h : ¬axes.Perm (List.range t.rank)) :
    t.permute axes = .error (.backend (.notPermutation axes t.rank)) := by
  rw [permute, requirePermutation_of_not_perm h]
  rfl

/-- A permutation by the numbers of the axes. -/
theorem permute_eq_ok (t : Tensor α) (order : axes.Perm (List.range t.rank)) :
    ∃ u, t.permute axes = .ok u ∧ u.shape = t.sizesOf axes ∧
      ∀ x : Assignment Nat, x.Within (fun axis => t.shape.getD axis 0) axes →
        u.get? (axes.map x) = t.get? ((List.range t.rank).map x) := by
  have names := names_map_range id (lt_of_mem_order order)
  rw [List.map_id, List.map_id] at names
  exact permute_spec t.shape_eq_sizesOf List.nodup_range (by rwa [List.length_range]) names

theorem isPermuted_of_permute (h : t.permute axes = .ok u) : u.IsPermuted t axes := by
  by_cases order : axes.Perm (List.range t.rank)
  · obtain ⟨v, hv, shape, reads⟩ := t.permute_eq_ok order
    obtain rfl : u = v := Except.ok.inj (h.symm.trans hv)
    have below := lt_of_mem_order order
    refine ⟨fun k => ?_, fun index inside => ?_⟩
    · have names := names_map_range (fun axis => t.shape.getD axis 0) below
      rw [Tensor.rank, AxisGroups.map_getD_range] at names
      rw [shape]
      exact names.getElem?
    · obtain ⟨x, hx, rfl⟩ := exists_map_eq (nodup_of_order order) (shape ▸ inside)
      obtain ⟨value, hvalue⟩ := Option.isSome_iff_exists.1 (isSome_get? inside)
      exact ⟨_, value, fun k => (names_map_range x below).getElem?, (reads x hx).symm.trans hvalue, hvalue⟩
  · cases h.symm.trans (t.permute_eq_error order)

theorem permute_range (t : Tensor α) : t.permute (List.range t.rank) = .ok t := by
  obtain ⟨u, hu, shape, reads⟩ := t.permute_eq_ok (.refl _)
  have same : u = t := by
    refine eq_of_get? (shape.trans t.shape_eq_sizesOf.symm) fun index inside => ?_
    obtain ⟨x, hx, rfl⟩ := exists_map_eq List.nodup_range (shape ▸ inside)
    exact reads x hx
  rw [hu, same]

theorem permute_permute (t : Tensor α) (h : first.Perm (List.range t.rank))
    (h' : second.Perm (List.range t.rank)) : ∃ v,
      (do let u ← t.permute first; u.permute second) = .ok v ∧
        t.permute (reordered first second) = .ok v := by
  have both := reordered_perm h h'
  obtain ⟨u, hu, shape, reads⟩ := t.permute_eq_ok h
  obtain ⟨w, hw, shape_w, reads_w⟩ := t.permute_eq_ok both
  -- the axes of `u` carry the numbers in `first`, so that the second permutation moves those
  rw [← length_order h] at h'
  have names := names_reordered (lt_of_mem_order h')
  obtain ⟨v, hv, shape_v, reads_v⟩ := permute_spec shape (nodup_of_order h) h' names
  have same : v = w := by
    refine eq_of_get? (shape_v.trans shape_w.symm) fun index inside => ?_
    obtain ⟨x, hx, rfl⟩ := exists_map_eq (nodup_of_order both) (shape_v ▸ inside)
    have within := (Assignment.within_perm (names.perm h')).1 hx
    exact (reads_v x hx).trans ((reads x within).trans (reads_w x hx).symm)
  exact ⟨w, by rw [hu]; exact same ▸ hv, hw⟩

theorem permute_undone (t : Tensor α) (order : axes.Perm (List.range t.rank)) :
    (do let u ← t.permute axes; u.permute (undone axes)) = .ok t := by
  obtain ⟨v, hv, both⟩ := t.permute_permute order (undone_perm order)
  rw [reordered_undone order, permute_range] at both
  rw [hv, both]

/-- A list passes the check just if it is an order of the axes, and every mark that the check reads
is there. A tensor is permuted by the orders of its axes and by no other list, and then axis `k` of
the result is its axis `axes[k]`. The order that the axes have already changes nothing, two
permutations in a row are the one by `first[second[k]]`, and the order that tells where each axis
stands gives the tensor back. -/
theorem permute_acts {α : Type} :
    (∀ (rank : Nat) (axes : List Nat),
      readMarks? rank (List.replicate rank false) axes =
        some (marksOnce (List.replicate rank false) axes) ∧
      (requirePermutation axes rank = .ok () ↔ axes.Perm (List.range rank)) ∧
      (¬axes.Perm (List.range rank) →
        requirePermutation axes rank = .error (.backend (.notPermutation axes rank)))) ∧
    ∀ t : Tensor α,
      (∀ axes, ((∃ u, t.permute axes = .ok u) ↔ axes.Perm (List.range t.rank)) ∧
        (¬axes.Perm (List.range t.rank) →
          t.permute axes = .error (.backend (.notPermutation axes t.rank))) ∧
        ∀ u, t.permute axes = .ok u → u.IsPermuted t axes) ∧
      t.permute (List.range t.rank) = .ok t ∧
      (∀ first second, first.Perm (List.range t.rank) → second.Perm (List.range t.rank) →
        ∃ v, (do let u ← t.permute first; u.permute second) = .ok v ∧
          t.permute (reordered first second) = .ok v) ∧
      ∀ axes, axes.Perm (List.range t.rank) → (undone axes).Perm (List.range t.rank) ∧
        reordered axes (undone axes) = List.range t.rank ∧
        (do let u ← t.permute axes; u.permute (undone axes)) = .ok t := by
  refine ⟨fun rank axes => ⟨readMarks?_eq List.length_replicate axes, ⟨fun passes => ?_,
      requirePermutation_of_perm⟩, requirePermutation_of_not_perm⟩,
    fun t => ⟨fun axes => ⟨⟨fun ⟨u, hu⟩ => ?_, fun order => ?_⟩, t.permute_eq_error,
      fun u => isPermuted_of_permute⟩, t.permute_range, fun first second => t.permute_permute,
      fun axes order => ⟨undone_perm order, reordered_undone order, t.permute_undone order⟩⟩⟩
  · by_contra other
    cases passes.symm.trans (requirePermutation_of_not_perm other)
  · by_contra other
    cases hu.symm.trans (t.permute_eq_error other)
  · obtain ⟨u, hu, -⟩ := t.permute_eq_ok order
    exact ⟨u, hu⟩

/-- A cycle of three axes and then the first two swapped. The other way round would be the order
`[0, 2, 1]`. -/
theorem permute_acts_cyclic :
    let t : Tensor Nat := ⟨[2, 1, 3], #[0, 1, 2, 3, 4, 5], rfl⟩
    [1, 2, 0].Perm (List.range t.rank) ∧ [1, 0, 2].Perm (List.range t.rank) ∧
      (∃ u, t.permute [1, 2, 0] = .ok u ∧ u.shape = [1, 3, 2] ∧ u.get? [0, 1, 0] = some 1 ∧
        u.IsPermuted t [1, 2, 0] ∧ u.permute [2, 0, 1] = .ok t) ∧
      (do let u ← t.permute [1, 2, 0]; u.permute [1, 0, 2]) = t.permute [2, 1, 0] ∧
      ¬[1, 1, 0].Perm (List.range t.rank) ∧
      t.permute [1, 1, 0] = .error (.backend (.notPermutation [1, 1, 0] 3)) := by
  intro t
  have cycle : [1, 2, 0].Perm (List.range t.rank) := by decide
  have swap : [1, 0, 2].Perm (List.range t.rank) := by decide
  have repeats : ¬[1, 1, 0].Perm (List.range t.rank) := by decide
  obtain ⟨permuted, -, composes, inverse⟩ := (permute_acts (α := Nat)).2 t
  obtain ⟨v, both, once⟩ := composes _ _ cycle swap
  obtain ⟨u, hu⟩ := (permuted [1, 2, 0]).1.2 cycle
  have back := (inverse _ cycle).2.2
  rw [hu] at back
  obtain rfl : u = ⟨[1, 3, 2], #[0, 3, 1, 4, 2, 5], rfl⟩ := Except.ok.inj hu.symm
  exact ⟨cycle, swap, ⟨_, hu, rfl, rfl, (permuted _).2.2 _ hu, back⟩, both.trans once.symm, repeats,
    (permuted _).2.1 repeats⟩

end Tensor

end Einsum
