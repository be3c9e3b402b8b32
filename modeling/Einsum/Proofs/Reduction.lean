import Einsum.Proofs.Entries
import Einsum.Tensor.Sum

/-! Sums over axes.
Axes are summed from the last one down, so that the numbers of the others stay right; in
the end the entries are the marginal over the labels of the axes. -/

namespace Einsum

variable {ι α : Type}

theorem eraseIdx_eq_filter [DecidableEq ι] {labels : List ι} (nodup : labels.Nodup) {axis : Nat}
    {c : ι} (hc : labels[axis]? = some c) : labels.eraseIdx axis = labels.filter (· ≠ c) := by
  induction labels generalizing axis with
  | nil => simp at hc
  | cons d labels ih =>
    obtain ⟨hd, nodup⟩ := List.nodup_cons.1 nodup
    cases axis with
    | zero =>
      obtain rfl : d = c := by simpa using hc
      rw [List.eraseIdx_zero, List.tail_cons, List.filter_cons_of_neg (by simp),
        List.filter_eq_self.2 fun e he => by simpa using ne_of_mem_of_not_mem he hd]
    | succ axis =>
      have hc : labels[axis]? = some c := by simpa using hc
      have hne : d ≠ c := (ne_of_mem_of_not_mem (List.mem_of_getElem? hc) hd).symm
      rw [List.eraseIdx_cons_succ, ih nodup hc, List.filter_cons_of_pos (by simpa using hne)]

theorem insertIdx_map_eraseIdx [DecidableEq ι] {labels : List ι} (nodup : labels.Nodup) {axis : Nat}
    {c : ι} (hc : labels[axis]? = some c) (x : Assignment ι) (i : Nat) :
    ((labels.eraseIdx axis).map x).insertIdx axis i = labels.map (Function.update x c i) := by
  induction labels generalizing axis with
  | nil => simp at hc
  | cons d labels ih =>
    obtain ⟨hd, nodup⟩ := List.nodup_cons.1 nodup
    cases axis with
    | zero =>
      obtain rfl : d = c := by simpa using hc
      have keep : labels.map (Function.update x d i) = labels.map x :=
        List.map_congr_left fun e he => Function.update_of_ne (ne_of_mem_of_not_mem he hd) i x
      simp [keep]
    | succ axis =>
      have hc : labels[axis]? = some c := by simpa using hc
      have hne : d ≠ c := (ne_of_mem_of_not_mem (List.mem_of_getElem? hc) hd).symm
      simp [ih nodup hc, Function.update_of_ne hne]

theorem isSome_foldlM {β : Type} {f : α → β → Option α} {bs : List β}
    (h : ∀ b ∈ bs, ∀ a, (f a b).isSome) (a : α) : (bs.foldlM f a).isSome := by
  induction bs generalizing a with
  | nil => rfl
  | cons b bs ih =>
    obtain ⟨hb, h⟩ := List.forall_mem_cons.1 h
    obtain ⟨a', ha⟩ := Option.isSome_iff_exists.1 (hb a)
    rw [List.foldlM_cons, ha]
    exact ih h a'

theorem foldlM_congr {β : Type} {f g : α → β → Option α} {bs : List β}
    (h : ∀ b ∈ bs, ∀ a, f a b = g a b) (a : α) : bs.foldlM f a = bs.foldlM g a := by
  induction bs generalizing a with
  | nil => rfl
  | cons b bs ih =>
    obtain ⟨hb, h⟩ := List.forall_mem_cons.1 h
    rw [List.foldlM_cons, List.foldlM_cons, hb a]
    congr 1
    funext a'
    exact ih h a'

theorem foldlM_add_eq_sum [AddCommMonoid α] {n : Nat} {f : α → Nat → Option α} {g : Nat → α}
    (h : ∀ i < n, ∀ a, f a i = some (a + g i)) :
    (List.range n).foldlM f 0 = some (∑ i ∈ Finset.range n, g i) := by
  induction n with
  | zero => rfl
  | succ n ih =>
    rw [List.range_succ, List.foldlM_append, ih fun i hi => h i (by omega), Finset.sum_range_succ]
    simp [h n (by omega)]

namespace Tensor

variable [DecidableEq ι] {size : ι → Nat} {t : Tensor α} {labels : List ι}

theorem sumAxis?_spec [Zero α] [Add α] (shape : t.shape = labels.map size) (nodup : labels.Nodup)
    {axis : Nat} {c : ι} (hc : labels[axis]? = some c) :
    ∃ u, t.sumAxis? axis = some u ∧ u.shape = (labels.filter (· ≠ c)).map size ∧
      ∀ x : Assignment ι, x.Within size (labels.filter (· ≠ c)) →
        u.get? ((labels.filter (· ≠ c)).map x) = (List.range (size c)).foldlM
          (fun acc i => (t.get? (labels.map (Function.update x c i))).map (acc + ·)) 0 := by
  have within {x : Assignment ι} (hx : x.Within size (labels.filter (· ≠ c))) {i : Nat}
      (hi : i < size c) : Assignment.Within (Function.update x c i) size labels :=
    Assignment.within_update_iff.2 ⟨fun _ => hi, hx⟩
  have insert (x : Assignment ι) (i : Nat) : ((labels.filter (· ≠ c)).map x).insertIdx axis i =
      labels.map (Function.update x c i) := by
    rw [← eraseIdx_eq_filter nodup hc, insertIdx_map_eraseIdx nodup hc]
  obtain ⟨u, hu, hs, he⟩ := tabulate?_spec size (nodup.filter (· ≠ c))
    (fun index => (List.range (size c)).foldlM
      (fun acc i => (t.get? (index.insertIdx axis i)).map (acc + ·)) 0) fun x hx => by
        refine isSome_foldlM (fun i hi a => ?_) 0
        rw [insert, Option.isSome_map]
        exact isSome_get?_map shape (within hx (List.mem_range.1 hi))
  refine ⟨u, ?_, hs, fun x hx => by simp only [he x hx, insert]⟩
  rw [sumAxis?, shape, List.getElem?_map, hc, List.eraseIdx_map, eraseIdx_eq_filter nodup hc]
  exact hu

theorem sumAxis?_entry [AddCommMonoid α] (shape : t.shape = labels.map size)
    (nodup : labels.Nodup) {axis : Nat} {c : ι} (hc : labels[axis]? = some c) {u : Tensor α}
    (hu : t.sumAxis? axis = some u) :
    u.entry (labels.filter (· ≠ c)) = marginal size [c] (t.entry labels) := by
  obtain ⟨v, hv, hs, he⟩ := sumAxis?_spec shape nodup hc
  obtain rfl : u = v := Option.some.inj (hu.symm.trans hv)
  refine entry_eq hs (fun x hx => ?_) fun x hx => ?_
  · refine (he x hx).trans (foldlM_add_eq_sum fun i hi a => ?_)
    rw [get?_eq_some_entry shape (Assignment.within_update_iff.2 ⟨fun _ => hi, hx⟩)]
    rfl
  · refine Finset.sum_eq_zero fun i _ => entry_eq_zero shape fun h => hx ?_
    exact (Assignment.within_update_iff.1 h).2

section Descending

variable {axes : List Nat} {summed : List ι}

theorem filter_notMem_cons (labels summed : List ι) (c : ι) :
    (labels.filter (· ≠ c)).filter (· ∉ summed) = labels.filter (· ∉ c :: summed) := by
  rw [List.filter_filter]
  congr 1
  funext d
  by_cases h : d = c <;> simp [h]

theorem foldlM_sumAxis?_spec [Zero α] [Add α] (descending : axes.Pairwise (· > ·))
    (names : Names labels axes summed) (shape : t.shape = labels.map size) (nodup : labels.Nodup) :
    ∃ u, axes.foldlM sumAxis? t = some u ∧ u.shape = (labels.filter (· ∉ summed)).map size := by
  induction axes generalizing t labels summed with
  | nil =>
    obtain rfl : summed = [] := List.length_eq_zero_iff.1 names.length.symm
    exact ⟨t, rfl, by simpa using shape⟩
  | cons axis axes ih =>
    obtain ⟨below, descending⟩ := List.pairwise_cons.1 descending
    cases summed with
    | nil => simp [Names] at names
    | cons c summed =>
      obtain ⟨hc, names⟩ := List.cons.inj names
      obtain ⟨v, hv, hs, -⟩ := sumAxis?_spec shape nodup hc
      have names := Names.eraseIdx names below
      rw [eraseIdx_eq_filter nodup hc] at names
      obtain ⟨u, hu, hs⟩ := ih descending names hs (nodup.filter _)
      exact ⟨u, by rwa [List.foldlM_cons, hv], by rw [hs, filter_notMem_cons]⟩

theorem foldlM_sumAxis?_entry [AddCommMonoid α] (descending : axes.Pairwise (· > ·))
    (names : Names labels axes summed) (shape : t.shape = labels.map size) (nodup : labels.Nodup)
    {u : Tensor α} (hu : axes.foldlM sumAxis? t = some u) :
    u.entry (labels.filter (· ∉ summed)) = marginal size summed (t.entry labels) := by
  induction axes generalizing t labels summed with
  | nil =>
    obtain rfl : summed = [] := List.length_eq_zero_iff.1 names.length.symm
    obtain rfl : t = u := Option.some.inj hu
    simp [marginal]
  | cons axis axes ih =>
    obtain ⟨below, descending⟩ := List.pairwise_cons.1 descending
    cases summed with
    | nil => simp [Names] at names
    | cons c summed =>
      obtain ⟨hc, names⟩ := List.cons.inj names
      obtain ⟨v, hv, hs, -⟩ := sumAxis?_spec shape nodup hc
      have names := Names.eraseIdx names below
      rw [eraseIdx_eq_filter nodup hc] at names
      rw [List.foldlM_cons, hv] at hu
      rw [← filter_notMem_cons, ih descending names hs (nodup.filter _) hu,
        sumAxis?_entry shape nodup hc hv, ← marginal_append]
      exact marginal_perm (List.perm_append_singleton c summed)

end Descending

/-- The axes in the order in which they are summed. -/
def descending (axes : List Nat) : List Nat := (axes.mergeSort fun a b => b ≤ a).eraseDups

theorem mem_descending {axes : List Nat} {axis : Nat} : axis ∈ descending axes ↔ axis ∈ axes := by
  rw [descending, List.mem_eraseDups, (List.mergeSort_perm axes _).mem_iff]

theorem pairwise_descending (axes : List Nat) : (descending axes).Pairwise (· > ·) := by
  have sorted : (axes.mergeSort fun a b => b ≤ a).Pairwise (· ≥ ·) :=
    (List.pairwise_mergeSort (fun a b c => by simp; omega) (fun a b => by simp; omega) axes).imp
      fun h => of_decide_eq_true h
  have nodup : (descending axes).Pairwise (· ≠ ·) := nodup_eraseDups _
  exact ((sorted.sublist (eraseDups_sublist _)).and nodup).imp fun ⟨hle, hne⟩ =>
    Nat.lt_of_le_of_ne hle hne.symm

theorem sumOver_eq [Zero α] [Add α] {axes : List Nat} (h : ∀ axis ∈ axes, axis < t.rank) :
    t.sumOver axes = orFault ((descending axes).foldlM sumAxis? t) := by
  rw [sumOver, ← descending]
  cases hd : (descending axes).head? with
  | none => rw [List.head?_eq_none_iff.1 hd]; rfl
  | some largest =>
    have hlt := h largest (mem_descending.1 (List.mem_of_mem_head? hd))
    simp [Nat.not_le.2 hlt]

section Labelled

variable {axes : List Nat} {summed : List ι} (shape : t.shape = labels.map size)
  (nodup : labels.Nodup) (below : ∀ axis ∈ axes, axis < labels.length)
  (carries : ∀ axis c, labels[axis]? = some c → (axis ∈ axes ↔ c ∈ summed))

include below carries

theorem exists_names_descending : ∃ order, Names labels (descending axes) order ∧
    (∀ c ∈ labels, c ∈ order ↔ c ∈ summed) ∧
    labels.filter (· ∉ order) = labels.filter (· ∉ summed) := by
  obtain ⟨order, names⟩ := Names.exists_target fun axis hm => below axis (mem_descending.1 hm)
  have hm (c : ι) (hc : c ∈ labels) : c ∈ order ↔ c ∈ summed := by
    refine names.mem_iff.trans ⟨?_, fun hs => ?_⟩
    · rintro ⟨axis, hm, hget⟩
      exact (carries axis c hget).1 (mem_descending.1 hm)
    · obtain ⟨axis, hget⟩ := List.mem_iff_getElem?.1 hc
      exact ⟨axis, mem_descending.2 ((carries axis c hget).2 hs), hget⟩
  exact ⟨order, names, hm, List.filter_congr fun c hc => by simp [hm c hc]⟩

include shape nodup

/-- Summing over the axes of some labels leaves the others. -/
theorem sumOver_spec [Zero α] [Add α] :
    ∃ u, t.sumOver axes = .ok u ∧ u.shape = (labels.filter (· ∉ summed)).map size := by
  obtain ⟨order, names, -, hkept⟩ := exists_names_descending below carries
  obtain ⟨u, hu, hs⟩ := foldlM_sumAxis?_spec (pairwise_descending axes) names shape nodup
  refine ⟨u, ?_, hkept ▸ hs⟩
  rw [sumOver_eq fun axis h => by simpa [rank, shape] using below axis h, hu]
  rfl

theorem sumOver_entry [AddCommMonoid α] (distinct : summed.Nodup) (subset : summed ⊆ labels)
    {u : Tensor α} (hu : t.sumOver axes = .ok u) :
    u.entry (labels.filter (· ∉ summed)) = marginal size summed (t.entry labels) := by
  obtain ⟨order, names, hm, hkept⟩ := exists_names_descending below carries
  obtain ⟨v, hv, -⟩ := foldlM_sumAxis?_spec (pairwise_descending axes) names shape nodup
  rw [sumOver_eq fun axis h => by simpa [rank, shape] using below axis h, hv] at hu
  obtain rfl : v = u := Except.ok.inj hu
  have hnodup : order.Nodup := names.nodup nodup ((pairwise_descending axes).imp Nat.ne_of_gt)
  have perm : order.Perm summed := by
    refine (List.perm_ext_iff_of_nodup hnodup distinct).2 fun c => ⟨fun hc => ?_, fun hc => ?_⟩
    · obtain ⟨axis, -, hget⟩ := names.mem_iff.1 hc
      exact (hm c (List.mem_of_getElem? hget)).1 hc
    · exact (hm c (subset hc)).2 hc
  rw [← marginal_perm perm, ← hkept]
  exact foldlM_sumAxis?_entry (pairwise_descending axes) names shape nodup hv

end Labelled

end Tensor

end Einsum
