import Einsum.Proofs.Entries

/-! Reordered axes and diagonals.
Permuting and taking the diagonals of repeated labels leave every entry under its labels,
for entries of any type. In a diagonal the groups of axes that carry one label collapse onto
the first occurrences, so that the axes left carry the distinct labels in order. -/

namespace Einsum

variable {ι α : Type}

namespace Tensor

variable [DecidableEq ι] {size : ι → Nat} {t : Tensor α}

theorem permuted?_spec {labels target : List ι} (shape : t.shape = labels.map size)
    (nodup : labels.Nodup) {axes : List Nat} (perm : axes.Perm (List.range labels.length))
    (names : Names labels axes target) :
    ∃ u, t.permuted? axes = some u ∧ u.shape = target.map size ∧
      ∀ x : Assignment ι, x.Within size target →
        u.get? (target.map x) = t.get? (labels.map x) := by
  have source : Names target ((List.range t.rank).map fun axis => axes.idxOf axis) labels := by
    rw [Names, List.map_map]
    apply List.ext_getElem?
    intro k
    by_cases hk : k < labels.length
    · have hm : k ∈ axes := perm.mem_iff.2 (List.mem_range.2 hk)
      simp [rank, shape, hk, names.getElem?, List.getElem?_idxOf hm]
    · simp [rank, shape, hk]
  obtain ⟨u, hu, hs, he⟩ :=
    gather?_spec shape ((names.perm perm).nodup_iff.2 nodup) source
  refine ⟨u, ?_, hs, he⟩
  rw [permuted?, shape, names.sizesAt?]
  exact hu

theorem permute_spec {labels target : List ι} (shape : t.shape = labels.map size)
    (nodup : labels.Nodup) {axes : List Nat} (perm : axes.Perm (List.range labels.length))
    (names : Names labels axes target) :
    ∃ u, t.permute axes = .ok u ∧ u.shape = target.map size ∧
      ∀ x : Assignment ι, x.Within size target →
        u.get? (target.map x) = t.get? (labels.map x) := by
  obtain ⟨u, hu, hs, he⟩ := permuted?_spec shape nodup perm names
  have rank : t.rank = labels.length := by simp [rank, shape]
  refine ⟨u, ?_, hs, he⟩
  rw [permute, rank, requirePermutation_of_perm perm, hu]
  rfl

end Tensor

namespace Labels

theorem axesOf_eq_positions (labels : Labels) (c : Label) :
    labels.axesOf c = positions (· = c) labels := rfl

theorem mem_axesOf {labels : Labels} {c : Label} {axis : Nat} :
    axis ∈ labels.axesOf c ↔ labels[axis]? = some c := by
  simp [axesOf_eq_positions, mem_positions]

theorem head?_axesOf (labels : Labels) (c : Label) : (labels.axesOf c).head? = labels.idxOf? c := by
  induction labels with
  | nil => rfl
  | cons d labels ih =>
    rw [axesOf_eq_positions] at ih ⊢
    rw [positions_cons, List.idxOf?_cons]
    by_cases h : d = c <;> simp [h, ih]

def firstAxes (labels : Labels) : List Nat :=
  (List.range labels.length).filter fun axis =>
    (labels[axis]?.map fun c => labels.idxOf c) == some axis

theorem names_firstAxes (labels : Labels) : Names labels (firstAxes labels) (distinct labels) := by
  induction labels using List.reverseRecOn with
  | nil => rfl
  | append_singleton labels c ih =>
    have before : (List.range labels.length).filter (fun axis =>
        ((labels ++ [c])[axis]?.map fun d => (labels ++ [c]).idxOf d) == some axis) =
        firstAxes labels := by
      refine List.filter_congr fun axis hm => ?_
      have hlt := List.mem_range.1 hm
      simp [List.getElem?_append_left hlt, List.idxOf_append, hlt]
    have keep : (firstAxes labels).map (fun axis => (labels ++ [c])[axis]?) =
        (firstAxes labels).map fun axis => labels[axis]? := by
      refine List.map_congr_left fun axis hm => ?_
      have hlt := List.mem_range.1 (List.mem_of_mem_filter hm)
      exact List.getElem?_append_left hlt
    rw [Names, distinct] at ih ⊢
    rw [firstAxes, List.length_append, List.length_singleton, List.range_succ, List.filter_append,
      before, eraseDups_append_singleton, List.map_append, keep, ih]
    by_cases h : c ∈ labels
    · have hne : labels.idxOf c ≠ labels.length := Nat.ne_of_lt (List.idxOf_lt_length_of_mem h)
      simp [h, List.idxOf_append, hne]
    · simp [h, List.idxOf_append]

theorem mem_firstAxes {labels : Labels} {axis : Nat} :
    axis ∈ labels.firstAxes ↔ ∃ c, labels[axis]? = some c ∧ labels.idxOf c = axis := by
  simp only [firstAxes, List.mem_filter, List.mem_range, beq_iff_eq, Option.map_eq_some_iff,
    and_iff_right_iff_imp]
  rintro ⟨c, h, -⟩
  exact (List.getElem?_eq_some_iff.1 h).1

end Labels

/-- The targets once the groups of the labels in `done` have collapsed: an axis that
carries one of them falls onto the first one that does. -/
def Collapsed (labels done : Labels) (targets : List (Option Nat)) : Prop :=
  targets.length = labels.length ∧ ∀ axis c, labels[axis]? = some c →
    targets[axis]? = some (if c ∈ done ∧ labels.idxOf c ≠ axis then some (labels.idxOf c) else none)

namespace Collapsed

variable {labels : Labels} {targets : List (Option Nat)}

theorem getElem? (h : Collapsed labels labels.distinct targets) {axis : Nat} {c : Label}
    (hc : labels[axis]? = some c) :
    targets[axis]? = some (if labels.idxOf c ≠ axis then some (labels.idxOf c) else none) := by
  simpa [Labels.mem_distinct, List.mem_of_getElem? hc] using h.2 axis c hc

theorem kept (h : Collapsed labels labels.distinct targets) :
    ((List.range labels.length).filter fun axis => targets[axis]?.join.isNone) =
      labels.firstAxes := by
  refine List.filter_congr fun axis hm => ?_
  have hlt := List.mem_range.1 hm
  have hc := List.getElem?_eq_getElem hlt
  rw [hc, h.getElem? hc]
  by_cases hfirst : labels.idxOf labels[axis] = axis <;> simp [hfirst]

/-- Each axis is read where its label stands among the distinct labels. -/
theorem names_source (h : Collapsed labels labels.distinct targets) :
    Names labels.distinct ((List.range labels.length).map fun axis =>
      (labels.firstAxes.idxOf? ((targets[axis]?.join).getD axis)).getD 0) labels := by
  rw [Names, List.map_map]
  apply List.ext_getElem?
  intro axis
  by_cases hlt : axis < labels.length
  · have hfirst : labels[labels.idxOf labels[axis]]? = some labels[axis] :=
      List.getElem?_idxOf (List.getElem_mem hlt)
    have hm : labels.idxOf labels[axis] ∈ labels.firstAxes :=
      Labels.mem_firstAxes.2 ⟨_, hfirst, rfl⟩
    have htarget : (targets[axis]?.join).getD axis = labels.idxOf labels[axis] := by
      rw [h.getElem? (List.getElem?_eq_getElem hlt)]
      by_cases heq : labels.idxOf labels[axis] = axis <;> simp [heq]
    simp [hlt, htarget, idxOf?_of_mem hm, (Labels.names_firstAxes labels).getElem?,
      List.getElem?_idxOf hm, hfirst]
  · simp [hlt]

end Collapsed

namespace Tensor

theorem foldlM_collapseAxis {shape : List Nat} {first n : Nat} (hfirst : shape[first]? = some n)
    {axes : List Nat} (h : ∀ axis ∈ axes, shape[axis]? = some n) (targets : List (Option Nat))
    (length : targets.length = shape.length) :
    ∃ targets', axes.foldlM (collapseAxis shape first) targets = .ok targets' ∧
      targets'.length = shape.length ∧
      ∀ a, targets'[a]? = if a ∈ axes ∧ a ≠ first then some (some first) else targets[a]? := by
  induction axes generalizing targets with
  | nil => exact ⟨targets, rfl, length, by simp⟩
  | cons axis axes ih =>
    obtain ⟨haxis, h⟩ := List.forall_mem_cons.1 h
    have hlt : axis < targets.length := length ▸ (List.getElem?_eq_some_iff.1 haxis).1
    have head : collapseAxis shape first targets axis =
        .ok (if axis = first then targets else targets.set axis (some first)) := by
      by_cases heq : axis = first <;> simp [collapseAxis, haxis, hfirst, heq]
    obtain ⟨targets', hfold, hlength, hget⟩ :=
      ih h (if axis = first then targets else targets.set axis (some first))
        (by split <;> simp [length])
    refine ⟨targets', by rw [List.foldlM_cons, head]; exact hfold, hlength, fun a => ?_⟩
    rw [hget a]
    by_cases heq : axis = first
    · grind
    · rw [if_neg heq, List.getElem?_set]
      grind

variable (size : Label → Nat) {labels : Labels}

theorem collapseGroup_axesOf {done : Labels} {targets : List (Option Nat)}
    (collapsed : Collapsed labels done targets) {c : Label} (hc : c ∈ labels) :
    ∃ targets', collapseGroup (labels.map size) targets (labels.axesOf c) = .ok targets' ∧
      Collapsed labels (done ++ [c]) targets' := by
  have carries : ∀ axis ∈ labels.axesOf c, labels[axis]? = some c := fun axis =>
    Labels.mem_axesOf.1
  have sized {axis : Nat} (h : labels[axis]? = some c) : (labels.map size)[axis]? = some (size c) := by
    rw [List.getElem?_map, h, Option.map_some]
  have head := labels.head?_axesOf c
  rw [idxOf?_of_mem hc] at head
  cases hgroup : labels.axesOf c with
  | nil => simp [hgroup] at head
  | cons first rest =>
    obtain rfl : first = labels.idxOf c := by simpa [hgroup] using head
    obtain ⟨targets', hfold, hlength, hget⟩ := foldlM_collapseAxis (sized (List.getElem?_idxOf hc))
      (fun axis hm => sized (carries axis hm)) targets (by rw [collapsed.1, List.length_map])
    rw [hgroup] at hfold
    refine ⟨targets', hfold, by rw [hlength, List.length_map], fun axis d hd => ?_⟩
    have hm : axis ∈ labels.axesOf c ↔ d = c := by simp [Labels.mem_axesOf, hd]
    rw [hget, collapsed.2 axis d hd]
    grind

theorem foldlM_collapseGroup {cs done : Labels} (hcs : ∀ c ∈ cs, c ∈ labels)
    {targets : List (Option Nat)} (collapsed : Collapsed labels done targets) :
    ∃ targets', ((cs.filterMap fun c =>
        if 1 < (labels.axesOf c).length then some (⟨c, labels.axesOf c⟩ : AxisGroup) else none).map
          (·.axes)).foldlM (collapseGroup (labels.map size)) targets = .ok targets' ∧
      Collapsed labels (done ++ cs) targets' := by
  induction cs generalizing done targets with
  | nil => exact ⟨targets, rfl, by simpa using collapsed⟩
  | cons c cs ih =>
    obtain ⟨hc, hcs⟩ := List.forall_mem_cons.1 hcs
    rw [List.append_cons]
    by_cases h : 1 < (labels.axesOf c).length
    · obtain ⟨next, hnext, collapsed⟩ := collapseGroup_axesOf size collapsed hc
      obtain ⟨targets', hfold, collapsed⟩ := ih hcs collapsed
      refine ⟨targets', ?_, collapsed⟩
      rw [List.filterMap_cons, if_pos h, List.map_cons, List.foldlM_cons, hnext]
      exact hfold
    · -- the only axis of `c` is its first one and keeps its target
      have single : Collapsed labels (done ++ [c]) targets := by
        refine ⟨collapsed.1, fun axis d hd => ?_⟩
        have first : d = c → labels.idxOf d = axis := by
          rintro rfl
          have hfirst := Labels.mem_axesOf.2 (List.getElem?_idxOf hc)
          have haxis := Labels.mem_axesOf.2 hd
          obtain ⟨a, ha⟩ := List.length_eq_one_iff.1
            (Nat.le_antisymm (Nat.le_of_not_lt h) (List.length_pos_of_mem haxis))
          rw [ha, List.mem_singleton] at hfirst haxis
          rw [hfirst, haxis]
        rw [collapsed.2 axis d hd]
        grind
      obtain ⟨targets', hfold, collapsed⟩ := ih hcs single
      exact ⟨targets', by rwa [List.filterMap_cons, if_neg h], collapsed⟩

/-- A diagonal leaves the distinct labels and reads the entries at which repeated labels
agree. -/
theorem diagonal_spec {α : Type} {t : Tensor α} {size : Label → Nat} (shape : t.shape = labels.map size) :
    ∃ u, t.diagonal (labels.diagonals.map (·.axes)) = .ok u ∧
      u.shape = labels.distinct.map size ∧
      ∀ x : Assignment Label, x.Within size labels.distinct →
        u.get? (labels.distinct.map x) = t.get? (labels.map x) := by
  have rank : t.rank = labels.length := by simp [rank, shape]
  have start : Collapsed labels [] (List.replicate labels.length none) :=
    ⟨by simp, fun axis c hc => by simp [(List.getElem?_eq_some_iff.1 hc).1]⟩
  obtain ⟨targets, hfold, collapsed⟩ := foldlM_collapseGroup size
    (fun c => Labels.mem_distinct.1) start
  obtain ⟨u, hu, hs, he⟩ := gather?_spec shape (nodup_eraseDups labels) collapsed.names_source
  refine ⟨u, ?_, hs, he⟩
  have hfold : (labels.diagonals.map (·.axes)).foldlM (collapseGroup (labels.map size))
      (List.replicate labels.length none) = .ok targets := hfold
  rw [diagonal, shape, rank, hfold]
  simp only [bind, Except.bind, collapsed.kept, (Labels.names_firstAxes labels).sizesAt?]
  exact congrArg orFault hu

end Tensor

end Einsum
