import Einsum.Proofs.Rearrange

/-! Diagonals by axis numbers.
The groups of a label list have no axis in common, list their axes upwards and follow the
first occurrences of their labels. Taking the diagonal along them leaves one axis for each
distinct label, in order, and reads the entry at which every axis has the coordinate of its
label. -/

namespace Einsum

namespace Labels

theorem pairwise_axesOf (labels : Labels) (c : Label) : (labels.axesOf c).Pairwise (· < ·) := by
  induction labels with
  | nil => exact List.Pairwise.nil
  | cons d labels ih =>
    have shifted : ((axesOf labels c).map (· + 1)).Pairwise (· < ·) :=
      List.pairwise_map.2 (ih.imp Nat.succ_lt_succ)
    rw [axesOf_eq_positions] at shifted ⊢
    rw [positions_cons]
    split
    · refine List.pairwise_cons.2 ⟨fun axis hm => ?_, shifted⟩
      obtain ⟨before, -, rfl⟩ := List.mem_map.1 hm
      exact Nat.succ_pos before
    · exact shifted

theorem disjoint_axesOf (labels : Labels) {c d : Label} (ne : c ≠ d) :
    List.Disjoint (labels.axesOf c) (labels.axesOf d) := by
  intro axis hc hd
  exact ne (Option.some.inj ((mem_axesOf.1 hc).symm.trans (mem_axesOf.1 hd)))

theorem mem_diagonals {labels : Labels} {group : AxisGroup} :
    group ∈ labels.diagonals ↔
      group.axes = labels.axesOf group.label ∧ 1 < group.axes.length := by
  simp only [diagonals, List.mem_filterMap]
  constructor
  · rintro ⟨c, -, h⟩
    split at h
    · cases h
      exact ⟨rfl, by assumption⟩
    · cases h
  · rintro ⟨axes, several⟩
    obtain ⟨axis, hm⟩ := List.exists_mem_of_length_pos (Nat.zero_lt_of_lt several)
    have carried := List.mem_of_getElem? (mem_axesOf.1 (axes ▸ hm))
    exact ⟨group.label, mem_distinct.2 carried, by rw [← axes, if_pos several]⟩

theorem map_idxOf_distinct (labels : Labels) :
    (labels.distinct.map fun c => labels.idxOf c) = labels.firstAxes := by
  refine List.map_injective_iff.2 (Option.some_injective Nat) ?_
  calc (labels.distinct.map fun c => labels.idxOf c).map some
      = (labels.distinct.map some).map (Option.map fun c => labels.idxOf c) := by
        simp [List.map_map, Function.comp_def]
    _ = labels.firstAxes.map fun axis => labels[axis]?.map fun c => labels.idxOf c := by
        rw [← names_firstAxes, List.map_map]
        rfl
    _ = labels.firstAxes.map some := by
        refine List.map_congr_left fun axis hm => ?_
        obtain ⟨c, hc, hfirst⟩ := mem_firstAxes.1 hm
        rw [hc, Option.map_some, hfirst]

/-- The distinct labels stand in the order of their first axes. -/
theorem pairwise_distinct (labels : Labels) :
    labels.distinct.Pairwise fun c d => labels.idxOf c < labels.idxOf d := by
  have ascending : labels.firstAxes.Pairwise (· < ·) := List.pairwise_lt_range.filter _
  rw [← map_idxOf_distinct] at ascending
  exact List.pairwise_map.1 ascending

theorem pairwise_diagonals (labels : Labels) : labels.diagonals.Pairwise fun first second =>
    labels.idxOf first.label < labels.idxOf second.label := by
  have label {c : Label} {group : AxisGroup} (h : (if 1 < (labels.axesOf c).length then
      some (⟨c, labels.axesOf c⟩ : AxisGroup) else none) = some group) : group.label = c := by
    split at h <;> cases h
    rfl
  refine (pairwise_distinct labels).filterMap _ fun c d before first hfirst second hsecond => ?_
  rwa [label hfirst, label hsecond]

end Labels

namespace Tensor

variable {α : Type} {labels : Labels} {t : Tensor α}

/-- Axes that carry the same label have the same size. -/
def Agrees (t : Tensor α) (labels : Labels) : Prop :=
  ∀ (a b : Nat) (c : Label), labels[a]? = some c → labels[b]? = some c → t.shape[a]? = t.shape[b]?

theorem exists_shape_eq_map (rank : t.rank = labels.length) (agrees : t.Agrees labels) :
    ∃ size : Label → Nat, t.shape = labels.map size ∧
      ∀ c ∈ labels, t.shape[labels.idxOf c]? = some (size c) := by
  have sized : ∀ c ∈ labels, t.shape[labels.idxOf c]? = some (t.shape.getD (labels.idxOf c) 0) := by
    intro c hc
    have below : labels.idxOf c < t.shape.length := by
      rw [← Tensor.rank, rank]
      exact List.idxOf_lt_length_of_mem hc
    simp [below]
  refine ⟨fun c => t.shape.getD (labels.idxOf c) 0, List.ext_getElem? fun axis => ?_, sized⟩
  rw [List.getElem?_map]
  cases hc : labels[axis]? with
  | none =>
    rw [List.getElem?_eq_none_iff, ← rank] at hc
    exact List.getElem?_eq_none hc
  | some c =>
    have carried := List.mem_of_getElem? hc
    rw [agrees axis _ c hc (List.getElem?_idxOf carried), sized c carried]
    rfl

/-- The groups of a label list have no axis in common, are ascending and follow the first
occurrences of their labels. The diagonal along them has an axis for each distinct label, in
order, and its entries are those at which all axes of a label have the same coordinate. -/
theorem diagonal_reads_distinct (labels : Labels) (t : Tensor α) (rank : t.rank = labels.length)
    (agrees : t.Agrees labels) :
    labels.diagonals.Pairwise (fun first second => List.Disjoint first.axes second.axes) ∧
    (∀ group ∈ labels.diagonals, group.axes.Pairwise (· < ·) ∧
      group.axes.head? = some (labels.idxOf group.label)) ∧
    labels.diagonals.Pairwise (fun first second =>
      labels.idxOf first.label < labels.idxOf second.label) ∧
    ∃ u, t.diagonal (labels.diagonals.map (·.axes)) = .ok u ∧
      u.shape.map some = labels.distinct.map (fun c => t.shape[labels.idxOf c]?) ∧
      ∀ index, (offset? u.shape index).isSome → ∃ value, u.get? index = some value ∧
        t.get? (labels.map fun c => index.getD (labels.distinct.idxOf c) 0) = some value := by
  have ordered := Labels.pairwise_diagonals labels
  refine ⟨?_, fun group hm => ?_, ordered, ?_⟩
  · refine ordered.imp_of_mem fun {first second} hfirst hsecond before => ?_
    rw [(Labels.mem_diagonals.1 hfirst).1, (Labels.mem_diagonals.1 hsecond).1]
    refine Labels.disjoint_axesOf labels fun same => ?_
    exact Nat.ne_of_lt before (congrArg (labels.idxOf ·) same)
  · obtain ⟨axes, several⟩ := Labels.mem_diagonals.1 hm
    obtain ⟨axis, hm⟩ := List.exists_mem_of_length_pos (Nat.zero_lt_of_lt several)
    have carried := List.mem_of_getElem? (Labels.mem_axesOf.1 (axes ▸ hm))
    rw [axes, Labels.head?_axesOf, idxOf?_of_mem carried]
    exact ⟨labels.pairwise_axesOf group.label, rfl⟩
  · obtain ⟨size, shape, sized⟩ := exists_shape_eq_map rank agrees
    obtain ⟨u, hu, hs, reads⟩ := diagonal_spec shape
    refine ⟨u, hu, ?_, fun index hi => ?_⟩
    · rw [hs, List.map_map]
      exact List.map_congr_left fun c hc => (sized c (Labels.mem_distinct.1 hc)).symm
    · obtain ⟨value, hv⟩ := Option.isSome_iff_exists.1 (isSome_get? hi)
      obtain ⟨x, hx, rfl⟩ := exists_map_eq (nodup_eraseDups labels) (hs ▸ hi)
      have found : (labels.map fun c => (labels.distinct.map x).getD (labels.distinct.idxOf c) 0) =
        labels.map x := map_getD_idxOf (fun c => Labels.mem_distinct.2) x 0
      exact ⟨value, hv, (congrArg t.get? found).trans ((reads x hx).symm.trans hv)⟩

/-- Two labels that alternate over five axes. -/
theorem diagonal_reads_distinct_alternating :
    let labels : Labels := ['i', 'j', 'i', 'j', 'i']
    let t : Tensor Nat := ⟨[2, 3, 2, 3, 2], Array.range 72, rfl⟩
    t.rank = labels.length ∧ t.Agrees labels ∧ ∃ u, t.diagonal [[0, 2, 4], [1, 3]] = .ok u ∧
      u.shape = [2, 3] ∧ u.get? [1, 2] = some 71 ∧ t.get? [1, 2, 1, 2, 1] = some 71 := by
  intro labels t
  have shape : t.shape = labels.map fun c => if c = 'i' then 2 else 3 := rfl
  have agrees : t.Agrees labels := by
    intro a b c ha hb
    rw [shape, List.getElem?_map, List.getElem?_map, ha, hb]
  obtain ⟨-, -, -, u, hu, hs, reads⟩ := diagonal_reads_distinct labels t rfl agrees
  have hs : u.shape = [2, 3] := List.map_injective_iff.2 (Option.some_injective Nat) hs
  obtain ⟨value, hv, ht⟩ := reads [1, 2] (by rw [hs]; rfl)
  have read : t.get? [1, 2, 1, 2, 1] = some 71 := rfl
  exact ⟨rfl, agrees, u, hu, hs, hv.trans (ht.symm.trans read), read⟩

end Tensor

end Einsum
