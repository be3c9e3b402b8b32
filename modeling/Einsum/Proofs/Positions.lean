import Mathlib.Data.List.Induction
import Mathlib.Data.List.Nodup
import Mathlib.Data.List.Perm.Subperm
import Einsum.Tensor.Rearrange

/-! Axis numbers and the labels found there.
`Names` ties a list of axes to the labels that they carry, `positions` lists the axes whose
labels have a property, and the check of a permutation accepts exactly the permutations. -/

namespace Einsum

variable {ι : Type}

/-- The axes, in the order in which they are listed, carry the labels of `target`. -/
def Names (labels : List ι) (axes : List Nat) (target : List ι) : Prop :=
  axes.map (fun axis => labels[axis]?) = target.map some

namespace Names

variable {labels target : List ι} {axes : List Nat}

theorem append {axes' : List Nat} {target' : List ι} (h : Names labels axes target)
    (h' : Names labels axes' target') : Names labels (axes ++ axes') (target ++ target') := by
  simp only [Names, List.map_append] at *
  rw [h, h']

/-- What belongs to the labels of a list is found for the labels of `target` at the axes. -/
theorem mapM {β : Type} (h : Names labels axes target) (f : ι → β) :
    (axes.mapM fun axis => (labels.map f)[axis]?) = some (target.map f) := by
  induction axes generalizing target with
  | nil => cases target <;> simp_all [Names]
  | cons axis axes ih =>
    cases target with
    | nil => simp [Names] at h
    | cons c target =>
      simp only [Names, List.map_cons, List.cons.injEq] at h
      rw [List.mapM_cons, ih h.2]
      simp [h.1]

theorem sizesAt? (h : Names labels axes target) (size : ι → Nat) :
    Einsum.sizesAt? (labels.map size) axes = some (target.map size) := h.mapM size

theorem length (h : Names labels axes target) : axes.length = target.length := by
  simpa using congrArg List.length h

theorem getElem? (h : Names labels axes target) {k : Nat} :
    target[k]? = axes[k]?.bind fun axis => labels[axis]? := by
  have h := congrArg (fun l => l[k]?) h
  simp only [List.getElem?_map] at h
  cases hk : axes[k]? <;> cases ht : target[k]? <;> simp_all

/-- Axes paired up carry the same labels on both sides. -/
theorem paired {right : List ι} {pairs : List (Nat × Nat)}
    (hl : Names labels (pairs.map (·.1)) target) (hr : Names right (pairs.map (·.2)) target) :
    ∀ pair ∈ pairs, ∃ c, labels[pair.1]? = some c ∧ right[pair.2]? = some c := by
  intro pair hm
  obtain ⟨k, hk⟩ := List.mem_iff_getElem?.1 hm
  have left := hl.getElem? (k := k)
  have right := hr.getElem? (k := k)
  rw [List.getElem?_map, hk] at left right
  have hlt : k < target.length := by
    rw [← hl.length, List.length_map]
    exact (List.getElem?_eq_some_iff.1 hk).1
  rw [List.getElem?_eq_getElem hlt] at left right
  exact ⟨target[k], left.symm, right.symm⟩

theorem mem_iff (h : Names labels axes target) {c : ι} :
    c ∈ target ↔ ∃ axis ∈ axes, labels[axis]? = some c := by
  have hm : c ∈ target ↔ some c ∈ target.map some := by simp
  rw [hm, ← h, List.mem_map]

theorem nodup (h : Names labels axes target) (labelsNodup : labels.Nodup) (axesNodup : axes.Nodup) :
    target.Nodup := by
  refine List.Nodup.of_map some (h ▸ axesNodup.map_on fun a ha b hb hab => ?_)
  obtain ⟨c, -, hc⟩ := List.mem_map.1 (h ▸ List.mem_map_of_mem (f := fun axis => labels[axis]?) ha)
  have hlt := (List.getElem?_eq_some_iff.1 hc.symm).1
  exact (List.getElem?_inj hlt labelsNodup).1 hab

theorem exists_target (h : ∀ axis ∈ axes, axis < labels.length) : ∃ target, Names labels axes target := by
  induction axes with
  | nil => exact ⟨[], rfl⟩
  | cons axis axes ih =>
    obtain ⟨hlt, h⟩ := List.forall_mem_cons.1 h
    obtain ⟨target, ht⟩ := ih h
    exact ⟨labels[axis] :: target, by simpa [Names, hlt] using ht⟩

theorem eraseIdx (h : Names labels axes target) {last : Nat} (below : ∀ axis ∈ axes, axis < last) :
    Names (labels.eraseIdx last) axes target := by
  refine Eq.trans (List.map_congr_left fun axis hm => ?_) h
  exact List.getElem?_eraseIdx_of_lt (below axis hm)

end Names

/-- The axes whose labels satisfy `p`, ascending. -/
def positions (p : ι → Prop) [DecidablePred p] (labels : List ι) : List Nat :=
  labels.zipIdx.filterMap fun (c, axis) => if p c then some axis else none

section Positions

variable {p : ι → Prop} [DecidablePred p]

theorem positions_cons (d : ι) (labels : List ι) :
    positions p (d :: labels) =
      if p d then 0 :: (positions p labels).map (· + 1) else (positions p labels).map (· + 1) := by
  have shifted : (labels.zipIdx 1).filterMap (fun (c, axis) => if p c then some axis else none) =
      (positions p labels).map (· + 1) := by
    rw [positions, List.zipIdx_eq_map_add, List.filterMap_map, List.map_filterMap]
    congr 1
    funext ⟨c, axis⟩
    by_cases h : p c <;> simp [h, Nat.add_comm]
  simp only [positions, List.zipIdx_cons, List.filterMap_cons, Nat.zero_add] at shifted ⊢
  split <;> simp_all

theorem mem_positions {labels : List ι} {axis : Nat} :
    axis ∈ positions p labels ↔ ∃ c, labels[axis]? = some c ∧ p c := by
  induction labels generalizing axis with
  | nil => simp [positions]
  | cons d labels ih =>
    rw [positions_cons]
    cases axis with
    | zero => by_cases h : p d <;> simp [h]
    | succ axis => by_cases h : p d <;> simp [h, ih]

end Positions

theorem idxOf?_of_mem [BEq ι] [LawfulBEq ι] {labels : List ι} {c : ι} (h : c ∈ labels) :
    labels.idxOf? c = some (labels.idxOf c) := by
  induction labels with
  | nil => simp at h
  | cons d labels ih =>
    rw [List.idxOf?_cons, List.idxOf_cons]
    by_cases heq : d = c
    · simp [heq]
    · rw [ih ((List.mem_cons.1 h).resolve_left fun h => heq h.symm), beq_false_of_ne heq]
      rfl

section IdxOf

variable [BEq ι] [LawfulBEq ι] {labels target : List ι}

theorem filterMap_idxOf? (h : ∀ c ∈ target, c ∈ labels) :
    target.filterMap (fun c => labels.idxOf? c) = target.map fun c => labels.idxOf c := by
  rw [← List.filterMap_eq_map]
  exact List.filterMap_congr fun c hc => idxOf?_of_mem (h c hc)

theorem names_idxOf (h : ∀ c ∈ target, c ∈ labels) :
    Names labels (target.map fun c => labels.idxOf c) target := by
  rw [Names, List.map_map]
  exact List.map_congr_left fun c hc => List.getElem?_idxOf (h c hc)

/-- What is listed along some labels is found again where they stand. -/
theorem map_getD_idxOf {β : Type} (h : ∀ c ∈ target, c ∈ labels) (f : ι → β) (d : β) :
    (target.map fun c => (labels.map f).getD (labels.idxOf c) d) = target.map f := by
  refine List.map_congr_left fun c hc => ?_
  rw [List.getD_eq_getElem?_getD, List.getElem?_map, List.getElem?_idxOf (h c hc)]
  rfl

theorem map_idxOf_self (nodup : labels.Nodup) :
    (labels.map fun c => labels.idxOf c) = List.range labels.length := by
  apply List.ext_getElem (by simp)
  intro k hk _
  simp [nodup.idxOf_getElem]

theorem map_idxOf_perm (nodup : labels.Nodup) (h : target.Perm labels) :
    (target.map fun c => labels.idxOf c).Perm (List.range labels.length) :=
  (h.map _).trans (.of_eq (map_idxOf_self nodup))

end IdxOf

section Distinct

variable [BEq ι] [LawfulBEq ι]

theorem eraseDups_append_singleton (labels : List ι) (c : ι) :
    (labels ++ [c]).eraseDups = if c ∈ labels then labels.eraseDups else labels.eraseDups ++ [c] := by
  rw [List.eraseDups_append]
  by_cases h : c ∈ labels <;> simp [List.removeAll, List.eraseDups_cons, h]

theorem nodup_eraseDups (labels : List ι) : labels.eraseDups.Nodup := by
  induction labels using List.reverseRecOn with
  | nil => exact List.nodup_nil
  | append_singleton labels c ih =>
    rw [eraseDups_append_singleton]
    by_cases h : c ∈ labels
    · rwa [if_pos h]
    · rw [if_neg h, List.nodup_append]
      refine ⟨ih, List.pairwise_singleton _ c, fun d hd e he => ?_⟩
      rw [List.mem_singleton.1 he]
      rintro rfl
      exact h (List.mem_eraseDups.1 hd)

theorem eraseDups_sublist (labels : List ι) : labels.eraseDups.Sublist labels := by
  induction labels using List.reverseRecOn with
  | nil => exact List.Sublist.refl _
  | append_singleton labels c ih =>
    rw [eraseDups_append_singleton]
    split
    · exact ih.trans (List.sublist_append_left labels [c])
    · exact ih.append (List.Sublist.refl [c])

theorem eraseDups_eq_self {labels : List ι} (nodup : labels.Nodup) : labels.eraseDups = labels := by
  induction labels using List.reverseRecOn with
  | nil => rfl
  | append_singleton labels c ih =>
    have h := List.nodup_append.1 nodup
    rw [eraseDups_append_singleton, if_neg fun hc => h.2.2 c hc c (by simp) rfl, ih h.1]

end Distinct

theorem marksOnce_iff {marks : List Bool} {axes : List Nat} :
    marksOnce marks axes ↔ axes.Nodup ∧ ∀ axis ∈ axes, marks[axis]? = some false := by
  induction axes generalizing marks with
  | nil => simp [marksOnce]
  | cons axis axes ih =>
    rw [marksOnce, List.nodup_cons, List.forall_mem_cons]
    cases h : marks[axis]? with
    | none => simp
    | some mark =>
      cases mark with
      | true => simp
      | false =>
        have other (a : Nat) : (marks.set axis true)[a]? = some false ↔
            a ≠ axis ∧ marks[a]? = some false := by
          rw [List.getElem?_set]
          grind
        simp only [ih, other]
        grind

theorem isPermutation_iff {axes : List Nat} {rank : Nat} :
    isPermutation axes rank ↔ axes.Perm (List.range rank) := by
  simp only [isPermutation, Bool.and_eq_true, beq_iff_eq, marksOnce_iff, List.getElem?_replicate]
  constructor
  · rintro ⟨length, nodup, below⟩
    have subset : axes ⊆ List.range rank := by
      intro axis hm
      have := below axis hm
      grind
    exact (List.subperm_of_subset nodup subset).perm_of_length_le (by simp [length])
  · intro h
    refine ⟨by simpa using h.length_eq, h.nodup_iff.2 List.nodup_range, ?_⟩
    intro axis hm
    simpa using List.mem_range.1 (h.mem_iff.1 hm)

theorem requirePermutation_of_perm {axes : List Nat} {rank : Nat} (h : axes.Perm (List.range rank)) :
    requirePermutation axes rank = .ok () := by
  simp [requirePermutation, isPermutation_iff.2 h]

theorem requirePermutation_of_not_perm {axes : List Nat} {rank : Nat}
    (h : ¬axes.Perm (List.range rank)) :
    requirePermutation axes rank = .error (.backend (.notPermutation axes rank)) := by
  rw [requirePermutation, if_neg (mt isPermutation_iff.1 h)]

theorem names_range (labels : List ι) : Names labels (List.range labels.length) labels := by
  apply List.ext_getElem?
  intro k
  grind

theorem names_map_range (f : Nat → ι) {axes : List Nat} {rank : Nat} (h : ∀ axis ∈ axes, axis < rank) :
    Names ((List.range rank).map f) axes (axes.map f) := by
  rw [Names, List.map_map]
  refine List.map_congr_left fun axis hm => ?_
  simp [h axis hm]

theorem Names.unique {labels target target' : List ι} {axes : List Nat}
    (h : Names labels axes target) (h' : Names labels axes target') : target = target' :=
  List.map_injective_iff.2 (fun _ _ => Option.some.inj) (h.symm.trans h')

theorem Names.perm {labels target : List ι} {axes : List Nat} (h : Names labels axes target)
    (perm : axes.Perm (List.range labels.length)) : target.Perm labels := by
  have h := (h ▸ perm.map fun axis => labels[axis]?).trans (.of_eq (names_range labels))
  simpa [List.filterMap_map] using h.filterMap id

end Einsum
