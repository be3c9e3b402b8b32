import Einsum.Proofs.Marginal
import Einsum.Proofs.Positions

/-! Entries of tensors by the labels of their axes.
A tensor whose shape lists the sizes of some labels is read under an assignment. What a
primitive makes is described by the labels of its axes and by its entries under every
assignment within the sizes. -/

namespace Einsum

variable {ι α : Type}

/-- The indices of the labels are below their sizes. -/
def Assignment.Within (x : Assignment ι) (size : ι → Nat) (labels : List ι) : Prop :=
  ∀ c ∈ labels, x c < size c

theorem Assignment.within_append_iff {x : Assignment ι} {size : ι → Nat} {first second : List ι} :
    x.Within size (first ++ second) ↔ x.Within size first ∧ x.Within size second :=
  List.forall_mem_append

theorem Assignment.within_perm {x : Assignment ι} {size : ι → Nat} {first second : List ι}
    (h : first.Perm second) : x.Within size first ↔ x.Within size second :=
  ⟨fun hx c hc => hx c (h.mem_iff.2 hc), fun hx c hc => hx c (h.mem_iff.1 hc)⟩

theorem Assignment.within_update_iff [DecidableEq ι] {x : Assignment ι} {size : ι → Nat}
    {labels : List ι} {c : ι} {i : Nat} :
    Assignment.Within (Function.update x c i) size labels ↔
      (c ∈ labels → i < size c) ∧ x.Within size (labels.filter (· ≠ c)) := by
  constructor
  · refine fun h => ⟨fun hc => by simpa using h c hc, fun d hd => ?_⟩
    obtain ⟨hd, hne⟩ := List.mem_filter.1 hd
    simpa [Function.update_of_ne (of_decide_eq_true hne)] using h d hd
  · rintro ⟨hc, h⟩ d hd
    by_cases hdc : d = c
    · rw [hdc, Function.update_self]
      exact hc (hdc ▸ hd)
    · rw [Function.update_of_ne hdc]
      exact h d (List.mem_filter.2 ⟨hd, decide_eq_true hdc⟩)

theorem length_of_isSome_offset? {shape index : List Nat} (h : (offset? shape index).isSome) :
    index.length = shape.length := by
  fun_induction offset? shape index with
  | case1 => rfl
  | case2 size shape i index _ ih => simpa using ih (by simpa using h)
  | case3 | case4 => simp at h

theorem isSome_offset?_map_iff {size : ι → Nat} {labels : List ι} {x : Assignment ι} :
    (offset? (labels.map size) (labels.map x)).isSome ↔ x.Within size labels := by
  induction labels with
  | nil => simp [offset?, Assignment.Within]
  | cons c labels ih =>
    simp only [List.map_cons, offset?, Assignment.Within, List.forall_mem_cons] at ih ⊢
    split <;> simp_all

/-- An index of a tensor is an assignment to its labels, if they differ. -/
theorem exists_map_eq [DecidableEq ι] {size : ι → Nat} {labels : List ι} (nodup : labels.Nodup)
    {index : List Nat} (h : (offset? (labels.map size) index).isSome) :
    ∃ x : Assignment ι, x.Within size labels ∧ labels.map x = index := by
  have length : index.length = labels.length := by simpa using length_of_isSome_offset? h
  have map := Assignment.map_set (x := fun _ => 0) nodup length
  exact ⟨_, isSome_offset?_map_iff.1 (by rw [map]; exact h), map⟩

namespace Tensor

theorem isSome_get? {t : Tensor α} {index : List Nat} (h : (offset? t.shape index).isSome) :
    (t.get? index).isSome := by
  obtain ⟨place, hp⟩ := Option.isSome_iff_exists.1 h
  have hlt := (unravel_of_offset? hp).1
  simp [get?, hp, t.size_eq, hlt]

theorem get?_eq_none {t : Tensor α} {index : List Nat} (h : ¬(offset? t.shape index).isSome) :
    t.get? index = none := by
  simp only [Option.isSome_iff_ne_none, ne_eq, not_not] at h
  simp [get?, h]

/-- A tensor is told by its shape and its entries. -/
theorem eq_of_get? {t u : Tensor α} (shape : t.shape = u.shape)
    (entries : ∀ index, (offset? t.shape index).isSome → t.get? index = u.get? index) : t = u := by
  obtain ⟨shape, data, size⟩ := t
  obtain ⟨_, data', size'⟩ := u
  obtain rfl := shape
  have same : data = data' := by
    refine Array.ext (size.trans size'.symm) fun place h h' => ?_
    have place_eq := offset?_unravel (size ▸ h)
    have entry := entries (unravel shape place) (by rw [place_eq]; rfl)
    simpa [get?, place_eq, h, h'] using entry
  subst same
  rfl

variable {size : ι → Nat} {t : Tensor α} {labels : List ι}

theorem isSome_get?_map (shape : t.shape = labels.map size) {x : Assignment ι}
    (hx : x.Within size labels) : (t.get? (labels.map x)).isSome :=
  isSome_get? (shape ▸ isSome_offset?_map_iff.2 hx)

/-- The entry under an assignment, zero where there is none. -/
def entry [Zero α] (t : Tensor α) (labels : List ι) (x : Assignment ι) : α :=
  (t.get? (labels.map x)).getD 0

section Entry

variable [Zero α] {x : Assignment ι}

theorem get?_eq_some_entry (shape : t.shape = labels.map size) (hx : x.Within size labels) :
    t.get? (labels.map x) = some (t.entry labels x) := by
  obtain ⟨a, ha⟩ := Option.isSome_iff_exists.1 (isSome_get?_map shape hx)
  rw [entry, ha, Option.getD_some]

theorem entry_eq_zero (shape : t.shape = labels.map size) (hx : ¬x.Within size labels) :
    t.entry labels x = 0 := by
  rw [entry, get?_eq_none (by rwa [shape, isSome_offset?_map_iff]), Option.getD_none]

/-- The entries of a tensor are told by the assignments within the sizes. -/
theorem entry_eq (shape : t.shape = labels.map size) {f : Assignment ι → α}
    (inside : ∀ x : Assignment ι, x.Within size labels → t.get? (labels.map x) = some (f x))
    (outside : ∀ x : Assignment ι, ¬x.Within size labels → f x = 0) : t.entry labels = f := by
  funext x
  by_cases hx : x.Within size labels
  · rw [entry, inside x hx, Option.getD_some]
  · rw [entry_eq_zero shape hx, outside x hx]

/-- A tensor that reads another one under the same assignments has its entries. -/
theorem entry_eq_entry {u : Tensor α} {target : List ι} (hu : u.shape = target.map size)
    (ht : t.shape = labels.map size)
    (within : ∀ x : Assignment ι, x.Within size target ↔ x.Within size labels)
    (reads : ∀ x : Assignment ι, x.Within size target →
      u.get? (target.map x) = t.get? (labels.map x)) : u.entry target = t.entry labels := by
  refine entry_eq hu (fun x hx => ?_) fun x hx => ?_
  · rw [reads x hx, get?_eq_some_entry ht ((within x).1 hx)]
  · exact entry_eq_zero ht (mt (within x).2 hx)

end Entry

variable [DecidableEq ι]

theorem tabulate?_spec (size : ι → Nat) (nodup : labels.Nodup) (entry : List Nat → Option α)
    (h : ∀ x : Assignment ι, x.Within size labels → (entry (labels.map x)).isSome) :
    ∃ t, tabulate? (labels.map size) entry = some t ∧ t.shape = labels.map size ∧
      ∀ x : Assignment ι, x.Within size labels → t.get? (labels.map x) = entry (labels.map x) := by
  have made : ∃ t, tabulate? (labels.map size) entry = some t :=
    exists_tabulate?_eq_some fun index hi => by
      obtain ⟨x, hx, rfl⟩ := exists_map_eq nodup hi
      exact h x hx
  obtain ⟨t, ht⟩ := made
  exact ⟨t, ht, shape_of_tabulate? ht,
    fun x hx => get?_of_tabulate? ht (isSome_offset?_map_iff.2 hx)⟩

theorem gather?_spec (shape : t.shape = labels.map size) {target : List ι} (nodup : target.Nodup)
    {source : List Nat} (names : Names target source labels) :
    ∃ u, t.gather? (target.map size) source = some u ∧ u.shape = target.map size ∧
      ∀ x : Assignment ι, x.Within size target →
        u.get? (target.map x) = t.get? (labels.map x) := by
  have entry (x : Assignment ι) : (do t.get? (← source.mapM fun axis => (target.map x)[axis]?)) =
      t.get? (labels.map x) := by rw [names.mapM x]; rfl
  have within {x : Assignment ι} (hx : x.Within size target) : x.Within size labels := by
    intro c hc
    have hc : some c ∈ source.map (fun axis => target[axis]?) := by
      rw [names]
      exact List.mem_map_of_mem hc
    obtain ⟨axis, -, hc⟩ := List.mem_map.1 hc
    exact hx c (List.mem_of_getElem? hc)
  obtain ⟨u, hu, hs, he⟩ := tabulate?_spec size nodup
    (fun index => do t.get? (← source.mapM fun axis => index[axis]?))
    fun x hx => by simpa only [entry] using isSome_get?_map shape (within hx)
  exact ⟨u, hu, hs, fun x hx => (he x hx).trans (entry x)⟩

end Tensor

end Einsum
