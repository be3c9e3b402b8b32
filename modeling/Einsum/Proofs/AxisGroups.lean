import Mathlib.Logic.Relation
import Einsum.Proofs.Rearrange

/-! Diagonals along any groups of axes.
Groups may overlap, repeat axes and list them in any order. An axis that comes after the
first one of some group collapses onto the first axis of the last such group, and the other
axes stay. When the axis to collapse onto does not stay, the coordinate is taken from the
first axis that stays. So the diagonal is right for all tensors of a rank exactly when every
axis takes its coordinate from the only staying axis that the groups tie it to, as along groups
without common axes. -/

namespace Einsum

namespace AxisGroups

variable {rank : Nat} {groups : List (List Nat)} {shape : List Nat} {a b : Nat}

def Together (groups : List (List Nat)) (a b : Nat) : Prop := ∃ group ∈ groups, a ∈ group ∧ b ∈ group

/-- Axes that a chain of groups keeps at one coordinate. -/
def Tied (groups : List (List Nat)) : Nat → Nat → Prop := Relation.EqvGen (Together groups)

theorem exists_le_or_lt (rank : Nat) (groups : List (List Nat)) :
    (∃ group ∈ groups, ∃ axis ∈ group, rank ≤ axis) ∨ ∀ group ∈ groups, ∀ axis ∈ group, axis < rank := by
  refine or_iff_not_imp_left.2 fun inside group hm axis ha => Nat.lt_of_not_le fun out => ?_
  exact inside ⟨group, hm, axis, ha, out⟩

theorem map_getD_range (shape : List Nat) :
    ((List.range shape.length).map fun axis => shape.getD axis 0) = shape :=
  List.ext_getElem (by simp) fun axis _ h => by simp [h]

/-- The first axis of the last group in which `axis` comes after the first. -/
def leader? (groups : List (List Nat)) (axis : Nat) : Option Nat :=
  (groups.reverse.find? fun group => axis ∈ group ∧ group.head? ≠ some axis).bind (·.head?)

/-- The axes that no group puts after its first one. -/
def staying (rank : Nat) (groups : List (List Nat)) : List Nat :=
  (List.range rank).filter fun axis => (leader? groups axis).isNone

/-- The staying axis that `axis` takes its coordinate from. -/
def source? (rank : Nat) (groups : List (List Nat)) (axis : Nat) : Option Nat :=
  let target := (leader? groups axis).getD axis
  if target ∈ staying rank groups then some target else (staying rank groups).head?

/-- Every axis takes its coordinate from the only staying axis that it is tied to. -/
def Untangled (rank : Nat) (groups : List (List Nat)) : Prop :=
  ∀ axis < rank, ∃ source, source? rank groups axis = some source ∧ Tied groups axis source ∧
    ∀ other ∈ staying rank groups, Tied groups axis other → other = source

/-- Each group lists axes of one size. -/
def Fit (shape : List Nat) (groups : List (List Nat)) : Prop :=
  ∀ group ∈ groups, ∃ size, ∀ axis ∈ group, shape[axis]? = some size

theorem mem_staying : a ∈ staying rank groups ↔ a < rank ∧ leader? groups a = none := by
  simp [staying]

theorem nodup_staying (rank : Nat) (groups : List (List Nat)) : (staying rank groups).Nodup :=
  List.nodup_range.filter _

theorem leader?_append_singleton (groups : List (List Nat)) (group : List Nat) (axis : Nat) :
    leader? (groups ++ [group]) axis =
      if axis ∈ group ∧ group.head? ≠ some axis then group.head? else leader? groups axis := by
  rw [leader?, leader?, List.reverse_append, List.reverse_singleton, List.singleton_append,
    List.find?_cons]
  by_cases later : axis ∈ group ∧ group.head? ≠ some axis <;> simp [later]

theorem mem_staying_of_source? (h : source? rank groups a = some b) : b ∈ staying rank groups := by
  rw [source?] at h
  split at h
  · exact Option.some.inj h ▸ ‹_›
  · exact List.mem_of_head? h

theorem source?_of_mem_staying (h : a ∈ staying rank groups) : source? rank groups a = some a := by
  have target : (leader? groups a).getD a = a := by rw [(mem_staying.1 h).2, Option.getD_none]
  rw [source?, target, if_pos h]

/-- A value that the axes of each group share is shared by tied axes. -/
theorem eq_of_tied {β : Type} (f : Nat → β)
    (shared : ∀ group ∈ groups, ∀ a ∈ group, ∀ b ∈ group, f a = f b) (tied : Tied groups a b) :
    f a = f b := by
  induction tied with
  | rel a b together =>
    obtain ⟨group, hm, ha, hb⟩ := together
    exact shared group hm a ha b hb
  | refl a => rfl
  | symm a b _ ih => exact ih.symm
  | trans a b c _ _ first second => exact first.trans second

theorem Fit.getElem?_eq (fit : Fit shape groups) (tied : Tied groups a b) : shape[a]? = shape[b]? := by
  refine eq_of_tied (fun axis => shape[axis]?) (fun group hm a ha b hb => ?_) tied
  obtain ⟨size, sized⟩ := fit group hm
  rw [sized a ha, sized b hb]

theorem Fit.lt_length (fit : Fit shape groups) {group : List Nat} (hm : group ∈ groups) (ha : a ∈ group) :
    a < shape.length := by
  obtain ⟨size, sized⟩ := fit group hm
  exact (List.getElem?_eq_some_iff.1 (sized a ha)).1

/-- Where the coordinate of each axis stands in an index of the result. -/
def places (rank : Nat) (groups : List (List Nat)) : List Nat :=
  (List.range rank).map fun axis =>
    ((staying rank groups).idxOf? ((leader? groups axis).getD axis)).getD 0

theorem getElem?_staying_place (rank : Nat) (groups : List (List Nat)) (axis : Nat) :
    (staying rank groups)[((staying rank groups).idxOf? ((leader? groups axis).getD axis)).getD 0]? =
      source? rank groups axis := by
  rw [source?]
  by_cases stays : (leader? groups axis).getD axis ∈ staying rank groups
  · simp only [idxOf?_of_mem stays, Option.getD_some, if_pos stays, List.getElem?_idxOf stays]
  · simp only [List.idxOf?_eq_none_iff.2 stays, Option.getD_none, if_neg stays, List.head?_eq_getElem?]

theorem exists_group_of_leader? {first : Nat} (h : leader? groups a = some first) :
    ∃ group ∈ groups, a ∈ group ∧ group.head? ≠ some a ∧ group.head? = some first := by
  obtain ⟨group, found, head⟩ := Option.bind_eq_some_iff.1 h
  obtain ⟨ha, later⟩ : a ∈ group ∧ group.head? ≠ some a := by simpa using List.find?_some found
  exact ⟨group, List.mem_reverse.1 (List.mem_of_find?_eq_some found), ha, later, head⟩

theorem leader?_eq_none_iff :
    leader? groups a = none ↔ ∀ group ∈ groups, a ∈ group → group.head? = some a := by
  constructor
  · intro h group hm ha
    by_contra later
    have found : (groups.reverse.find? fun group => a ∈ group ∧ group.head? ≠ some a).isSome :=
      List.find?_isSome.2 ⟨group, List.mem_reverse.2 hm, decide_eq_true ⟨ha, later⟩⟩
    obtain ⟨last, hlast⟩ := Option.isSome_iff_exists.1 found
    obtain ⟨member, -⟩ : a ∈ last ∧ last.head? ≠ some a := by simpa using List.find?_some hlast
    rw [leader?, hlast, Option.bind_some, List.head?_eq_none_iff] at h
    exact List.not_mem_nil (h ▸ member)
  · intro first
    cases h : leader? groups a with
    | none => rfl
    | some leader =>
      obtain ⟨group, hm, ha, later, -⟩ := exists_group_of_leader? h
      exact absurd (first group hm ha) later

section Disjoint

variable {group other : List Nat} (disjoint : groups.Pairwise List.Disjoint)

include disjoint

theorem eq_group_of_mem (hm : group ∈ groups) (hother : other ∈ groups) (ha : a ∈ group)
    (member : a ∈ other) : other = group := by
  have : Std.Symm (@List.Disjoint Nat) := ⟨fun _ _ h => h.symm⟩
  by_contra differ
  exact disjoint.forall hother hm differ member ha

theorem head?_eq_target (hm : group ∈ groups) (ha : a ∈ group) :
    group.head? = some ((leader? groups a).getD a) := by
  cases h : leader? groups a with
  | none => exact leader?_eq_none_iff.1 h group hm ha
  | some first =>
    obtain ⟨other, hother, member, -, head⟩ := exists_group_of_leader? h
    exact eq_group_of_mem disjoint hm hother ha member ▸ head

theorem mem_staying_of_head? (hm : group ∈ groups) (head : group.head? = some a) (lt : a < rank) :
    a ∈ staying rank groups := by
  refine mem_staying.2 ⟨lt, leader?_eq_none_iff.2 fun other hother member => ?_⟩
  exact eq_group_of_mem disjoint hm hother (List.mem_of_head? head) member ▸ head

theorem eq_target_of_tied (stays : b ∈ staying rank groups) (tied : Tied groups a b) :
    b = (leader? groups a).getD a := by
  have same := eq_of_tied (fun axis => (leader? groups axis).getD axis) (fun group hm a ha b hb =>
    Option.some.inj ((head?_eq_target disjoint hm ha).symm.trans (head?_eq_target disjoint hm hb))) tied
  rw [same, (mem_staying.1 stays).2, Option.getD_none]

/-- Groups without common axes are untangled: each ties its axes to its first one. -/
theorem untangled_of_disjoint (below : ∀ group ∈ groups, ∀ axis ∈ group, axis < rank) :
    Untangled rank groups := by
  intro axis hlt
  have only (other : Nat) (stays : other ∈ staying rank groups) (tied : Tied groups axis other) :=
    eq_target_of_tied disjoint stays tied
  cases h : leader? groups axis with
  | none =>
    rw [h] at only
    exact ⟨axis, source?_of_mem_staying (mem_staying.2 ⟨hlt, h⟩), .refl axis, only⟩
  | some first =>
    rw [h] at only
    obtain ⟨group, hm, ha, -, head⟩ := exists_group_of_leader? h
    have hfirst := List.mem_of_head? head
    have stays := mem_staying_of_head? disjoint hm head (below group hm first hfirst)
    refine ⟨first, ?_, .rel _ _ ⟨group, hm, ha, hfirst⟩, only⟩
    rw [source?, h, Option.getD_some, if_pos stays]

end Disjoint

end AxisGroups

namespace Tensor

open AxisGroups

variable {α : Type} {t u : Tensor α} {shape : List Nat} {groups : List (List Nat)}

theorem collapseGroup_eq_ok {group : List Nat} {n : Nat} (sized : ∀ axis ∈ group, shape[axis]? = some n)
    (targets : List (Option Nat)) (length : targets.length = shape.length) :
    ∃ targets', collapseGroup shape targets group = .ok targets' ∧ targets'.length = shape.length ∧
      ∀ a, targets'[a]? =
        if a ∈ group ∧ group.head? ≠ some a then some group.head? else targets[a]? := by
  cases group with
  | nil => exact ⟨targets, rfl, length, by simp⟩
  | cons first rest =>
    obtain ⟨targets', collapsed, length', get⟩ :=
      foldlM_collapseAxis (sized first List.mem_cons_self) sized targets length
    refine ⟨targets', collapsed, length', fun a => ?_⟩
    simp only [get a, List.head?_cons, ne_eq, Option.some_inj, eq_comm (a := a)]

/-- Collapsing the axes of fitting groups leaves each axis with its leader. -/
theorem exists_targets (fit : Fit shape groups) :
    ∃ targets, groups.foldlM (collapseGroup shape) (List.replicate shape.length none) = .ok targets ∧
      targets.length = shape.length ∧ ∀ a < shape.length, targets[a]? = some (leader? groups a) := by
  induction groups using List.reverseRecOn with
  | nil => exact ⟨_, rfl, List.length_replicate, fun a ha => by simp [ha, leader?]⟩
  | append_singleton groups group ih =>
    obtain ⟨targets, collapsed, length, get⟩ := ih fun g hm => fit g (List.mem_append_left _ hm)
    obtain ⟨size, sized⟩ := fit group (List.mem_append_right _ (List.mem_singleton_self group))
    obtain ⟨targets', last, length', get'⟩ := collapseGroup_eq_ok sized targets length
    refine ⟨targets', ?_, length', fun a ha => ?_⟩
    · rw [List.foldlM_append, collapsed]
      change [group].foldlM (collapseGroup shape) targets = .ok targets'
      rw [List.foldlM_cons, last]
      rfl
    · rw [get' a, leader?_append_singleton, get a ha]
      split <;> rfl

theorem collapseAxis_cases (shape : List Nat) (first : Nat) (targets : List (Option Nat)) (axis : Nat) :
    (∃ n targets', shape[axis]? = some n ∧ shape[first]? = some n ∧
      collapseAxis shape first targets axis = .ok targets') ∨
    ∃ problem, collapseAxis shape first targets axis = .error (.backend problem) := by
  rw [collapseAxis.eq_def]
  split
  · rename_i n firstSize size first
    by_cases same : n = firstSize
    · rw [if_neg (not_not.2 same)]
      split
      · exact .inl ⟨n, _, size, same ▸ first, rfl⟩
      · exact .inl ⟨n, _, size, same ▸ first, rfl⟩
    · exact .inr ⟨_, if_pos same⟩
  · exact .inr ⟨_, rfl⟩

theorem foldlM_collapseAxis_cases (shape : List Nat) (first : Nat) (axes : List Nat)
    (targets : List (Option Nat)) :
    (∀ axis ∈ axes, ∃ n, shape[axis]? = some n ∧ shape[first]? = some n) ∨
    ∃ problem, axes.foldlM (collapseAxis shape first) targets = .error (.backend problem) := by
  induction axes generalizing targets with
  | nil => exact .inl fun _ h => absurd h List.not_mem_nil
  | cons axis axes ih =>
    rw [List.foldlM_cons]
    obtain ⟨n, next, size, firstSize, collapsed⟩ | ⟨problem, refused⟩ :=
      collapseAxis_cases shape first targets axis
    · rw [collapsed]
      exact (ih next).imp_left fun rest => List.forall_mem_cons.2 ⟨⟨n, size, firstSize⟩, rest⟩
    · rw [refused]
      exact .inr ⟨problem, rfl⟩

theorem collapseGroup_cases (shape group : List Nat) (targets : List (Option Nat)) :
    (∃ n, ∀ axis ∈ group, shape[axis]? = some n) ∨
    ∃ problem, collapseGroup shape targets group = .error (.backend problem) := by
  cases group with
  | nil => exact .inl ⟨0, fun _ h => absurd h List.not_mem_nil⟩
  | cons first rest =>
    refine (foldlM_collapseAxis_cases shape first (first :: rest) targets).imp_left fun all => ?_
    obtain ⟨n, size, -⟩ := all first List.mem_cons_self
    refine ⟨n, fun axis hm => ?_⟩
    obtain ⟨m, axisSize, firstSize⟩ := all axis hm
    rw [axisSize, ← firstSize, size]

/-- Groups that do not fit are refused. -/
theorem exists_foldlM_collapseGroup_eq_error (misfit : ¬Fit shape groups) (targets : List (Option Nat))
    (length : targets.length = shape.length) :
    ∃ problem, groups.foldlM (collapseGroup shape) targets = .error (.backend problem) := by
  induction groups generalizing targets with
  | nil => exact absurd (fun _ h => absurd h List.not_mem_nil) misfit
  | cons group groups ih =>
    rw [List.foldlM_cons]
    obtain ⟨n, sized⟩ | ⟨problem, refused⟩ := collapseGroup_cases shape group targets
    · obtain ⟨next, collapsed, length, -⟩ := collapseGroup_eq_ok sized targets length
      rw [collapsed]
      exact ih (fun fit => misfit (List.forall_mem_cons.2 ⟨⟨n, sized⟩, fit⟩)) next length
    · rw [refused]
      exact ⟨problem, rfl⟩

/-- The diagonal gathers the entries that the staying axes name. -/
theorem diagonal_eq_gather? (fit : Fit t.shape groups) :
    t.diagonal groups = orFault (t.gather? ((staying t.rank groups).map fun axis => t.shape.getD axis 0)
      (places t.rank groups)) := by
  obtain ⟨targets, collapsed, length, get⟩ := exists_targets fit
  have get : ∀ axis ∈ List.range t.rank, targets[axis]?.join = leader? groups axis := fun axis hm => by
    rw [get axis (List.mem_range.1 hm), Option.join_some]
  have kept : ((List.range t.rank).filter fun axis => targets[axis]?.join.isNone) =
      staying t.rank groups := List.filter_congr fun axis hm => by rw [get axis hm]
  have below : ∀ axis ∈ staying t.rank groups, axis < t.rank := fun axis hm => (mem_staying.1 hm).1
  have sizes : sizesAt? t.shape (staying t.rank groups) =
      some ((staying t.rank groups).map fun axis => t.shape.getD axis 0) := by
    have named := (names_map_range id below).sizesAt? fun axis => t.shape.getD axis 0
    rw [List.map_id, List.map_id, rank, map_getD_range] at named
    exact named
  have source : ((List.range t.rank).map fun axis =>
      ((staying t.rank groups).idxOf? ((targets[axis]?.join).getD axis)).getD 0) =
      places t.rank groups := List.map_congr_left fun axis hm => by rw [get axis hm]
  have collapsed : groups.foldlM (collapseGroup t.shape) (List.replicate t.rank none) = .ok targets :=
    collapsed
  rw [diagonal, collapsed]
  simp only [bind, Except.bind, kept, sizes, source]
  rfl

/-- The entries are those of `t` at indices that give the axes of each group one coordinate. -/
def IsDiagonal (t : Tensor α) (groups : List (List Nat)) (u : Tensor α) : Prop :=
  ∀ index, (offset? u.shape index).isSome → ∃ source, (offset? t.shape source).isSome ∧
    (∀ group ∈ groups, ∀ a ∈ group, ∀ b ∈ group, source[a]? = source[b]?) ∧
    u.get? index = t.get? source

/-- The groups are refused, or a diagonal is returned. -/
def DiagonalSafe (t : Tensor α) (groups : List (List Nat)) : Prop :=
  (∃ problem, t.diagonal groups = .error (.backend problem)) ∨
    ∃ u, t.diagonal groups = .ok u ∧ t.IsDiagonal groups u

theorem exists_diagonal_eq_error (misfit : ¬Fit t.shape groups) :
    ∃ problem, t.diagonal groups = .error (.backend problem) := by
  obtain ⟨problem, refused⟩ := exists_foldlM_collapseGroup_eq_error misfit
    (List.replicate t.rank none) List.length_replicate
  exact ⟨problem, by rw [diagonal, refused]; rfl⟩

/-- Along untangled groups every entry is read at the coordinates of the staying axes. -/
theorem diagonal_reads (fit : Fit t.shape groups) (untangled : Untangled t.rank groups) :
    ∃ u, t.diagonal groups = .ok u ∧
      u.shape = (staying t.rank groups).map (fun axis => t.shape.getD axis 0) ∧
      ∀ x : Assignment Nat, x.Within (fun axis => t.shape.getD axis 0) (staying t.rank groups) →
        u.get? ((staying t.rank groups).map x) =
          t.get? ((List.range t.rank).map fun axis => x ((source? t.rank groups axis).getD 0)) := by
  have source {axis : Nat} (ha : axis < t.rank) :
      source? t.rank groups axis = some ((source? t.rank groups axis).getD 0) := by
    obtain ⟨source, hs, -⟩ := untangled axis ha
    rw [hs, Option.getD_some]
  have names : Names (staying t.rank groups) (places t.rank groups)
      ((List.range t.rank).map fun axis => (source? t.rank groups axis).getD 0) := by
    rw [Names, places, List.map_map, List.map_map]
    refine List.map_congr_left fun axis hm => ?_
    exact (getElem?_staying_place ..).trans (source (List.mem_range.1 hm))
  have shape : t.shape = ((List.range t.rank).map fun axis =>
      (source? t.rank groups axis).getD 0).map fun axis => t.shape.getD axis 0 := by
    conv_lhs => rw [← map_getD_range t.shape]
    rw [List.map_map]
    refine List.map_congr_left fun axis hm => ?_
    obtain ⟨first, hs, tied, -⟩ := untangled axis (List.mem_range.1 hm)
    rw [Function.comp_apply, hs, Option.getD_some, List.getD_eq_getElem?_getD,
      List.getD_eq_getElem?_getD, fit.getElem?_eq tied]
  obtain ⟨u, hu, hs, reads⟩ := gather?_spec shape (nodup_staying _ _) names
  refine ⟨u, ?_, hs, fun x hx => (reads x hx).trans (by rw [List.map_map]; rfl)⟩
  rw [diagonal_eq_gather? fit, hu]
  rfl

theorem isSome_offset?_of_get? {index : List Nat} (h : (t.get? index).isSome) :
    (offset? t.shape index).isSome := by
  by_contra outside
  rw [get?_eq_none outside] at h
  cases h

theorem isDiagonal_of_untangled (fit : Fit t.shape groups) (untangled : Untangled t.rank groups) :
    ∃ u, t.diagonal groups = .ok u ∧ t.IsDiagonal groups u := by
  obtain ⟨u, hu, hs, reads⟩ := diagonal_reads fit untangled
  refine ⟨u, hu, fun index hi => ?_⟩
  obtain ⟨x, hx, rfl⟩ := exists_map_eq (nodup_staying _ _) (hs ▸ hi)
  refine ⟨_, ?_, fun group hm a ha b hb => ?_, reads x hx⟩
  · exact isSome_offset?_of_get? (reads x hx ▸ isSome_get? hi)
  · -- both axes are tied to the sources of both, so these are the same
    obtain ⟨first, hfirst, tied, only⟩ := untangled a (fit.lt_length hm ha)
    obtain ⟨second, hsecond, tied', -⟩ := untangled b (fit.lt_length hm hb)
    have same := only second (mem_staying_of_source? hsecond) (.trans _ _ _ (.rel _ _ ⟨group, hm, ha, hb⟩) tied')
    have below {axis : Nat} (h : axis ∈ group) : axis < t.rank := fit.lt_length hm h
    simp [below ha, below hb, hfirst, hsecond, same]

theorem orFault_ne_backend {x : Option (Tensor α)} {problem : BackendError} :
    orFault x ≠ .error (.backend problem) := by
  cases x <;> exact fun h => by cases h

theorem DiagonalSafe.exists_gather? (safe : t.DiagonalSafe groups) (fit : Fit t.shape groups) :
    ∃ u, t.gather? ((staying t.rank groups).map fun axis => t.shape.getD axis 0)
        (places t.rank groups) = some u ∧ t.IsDiagonal groups u := by
  rw [DiagonalSafe, diagonal_eq_gather? fit] at safe
  obtain ⟨problem, refused⟩ | ⟨u, hu, isDiagonal⟩ := safe
  · exact absurd refused orFault_ne_backend
  · refine ⟨u, ?_, isDiagonal⟩
    cases gathered : t.gather? ((staying t.rank groups).map fun axis => t.shape.getD axis 0)
      (places t.rank groups) <;> rw [gathered] at hu <;> cases hu
    rfl

/-- The tensor whose entries are their own indices. -/
theorem exists_indices (shape : List Nat) : ∃ t : Tensor (List Nat), t.shape = shape ∧
    ∀ index, (offset? shape index).isSome → t.get? index = some index := by
  obtain ⟨t, made⟩ : ∃ t, tabulate? shape some = some t := exists_tabulate?_eq_some fun _ _ => rfl
  exact ⟨t, shape_of_tabulate? made, fun index hi => get?_of_tabulate? made hi⟩

/-- An entry of the indices tells the index that it was gathered from. -/
theorem mapM_of_gather?_indices {t u : Tensor (List Nat)} {sizes places index source : List Nat}
    (indices : ∀ index, (offset? t.shape index).isSome → t.get? index = some index)
    (gathered : t.gather? sizes places = some u) (inside : (offset? sizes index).isSome)
    (hsource : (offset? t.shape source).isSome) (entry : u.get? index = t.get? source) :
    places.mapM (index[·]?) = some source := by
  rw [get?_of_tabulate? gathered inside, indices source hsource] at entry
  obtain ⟨read, hmap, hget⟩ := Option.bind_eq_some_iff.1 entry
  have same := indices read (isSome_offset?_of_get? (hget ▸ rfl))
  rw [hmap, Option.some.inj (same.symm.trans hget)]

section Tangles

variable {rank : Nat}

theorem fit_map_range {size : Nat → Nat} (below : ∀ group ∈ groups, ∀ axis ∈ group, axis < rank)
    (shared : ∀ group ∈ groups, ∀ a ∈ group, ∀ b ∈ group, size a = size b) :
    Fit ((List.range rank).map size) groups := by
  intro group hm
  cases group with
  | nil => exact ⟨0, fun _ h => absurd h List.not_mem_nil⟩
  | cons first rest =>
    refine ⟨size first, fun axis ha => ?_⟩
    rw [List.getElem?_map, List.getElem?_range (below _ hm axis ha), Option.map_some,
      shared _ hm axis ha first List.mem_cons_self]

/-- What a safe diagonal of the indices reads, where tied axes have one size: the index on the
diagonal that gives every axis the coordinate of its source. -/
theorem exists_read_index (size : Nat → Nat) (x : Assignment Nat)
    (safe : ∀ t : Tensor (List Nat), t.rank = rank → t.DiagonalSafe groups)
    (below : ∀ group ∈ groups, ∀ axis ∈ group, axis < rank)
    (shared : ∀ group ∈ groups, ∀ a ∈ group, ∀ b ∈ group, size a = size b)
    (within : x.Within size (staying rank groups)) :
    ∃ y : Assignment Nat, y.Within size (List.range rank) ∧
      (∀ a < rank, (source? rank groups a).map x = some (y a)) ∧
      ∀ group ∈ groups, ∀ a ∈ group, ∀ b ∈ group, y a = y b := by
  obtain ⟨t, shape, indices⟩ := exists_indices ((List.range rank).map size)
  obtain rfl : t.rank = rank := by rw [Tensor.rank, shape, List.length_map, List.length_range]
  obtain ⟨u, hu, isDiagonal⟩ := (safe t rfl).exists_gather? (shape ▸ fit_map_range below shared)
  have inside : (offset? ((staying t.rank groups).map fun axis => t.shape.getD axis 0)
      ((staying t.rank groups).map x)).isSome := by
    refine isSome_offset?_map_iff.2 fun axis hm => ?_
    rw [shape]
    simpa [(mem_staying.1 hm).1] using within axis hm
  obtain ⟨source, hsource, agree, entry⟩ :=
    isDiagonal ((staying t.rank groups).map x) (by rwa [shape_of_tabulate? hu])
  have hmap := mapM_of_gather?_indices (fun index hi => indices index (shape ▸ hi)) hu inside hsource entry
  obtain ⟨y, hy, rfl⟩ := exists_map_eq List.nodup_range (shape ▸ hsource)
  have coordinate {a : Nat} (ha : a < t.rank) : ((List.range t.rank).map y)[a]? = some (y a) := by
    rw [List.getElem?_map, List.getElem?_range ha, Option.map_some]
  refine ⟨y, hy, fun a ha => ?_, fun group hm a ha b hb => ?_⟩
  · rw [← coordinate ha, getElem?_of_mapM_eq_some hmap a, places, List.getElem?_map,
      List.getElem?_range ha, Option.map_some, Option.bind_some, List.getElem?_map,
      getElem?_staying_place]
  · have together := agree group hm a ha b hb
    rw [coordinate (below group hm a ha), coordinate (below group hm b hb)] at together
    exact Option.some.inj together

section Sources

variable {a k : Nat} (safe : ∀ t : Tensor (List Nat), t.rank = rank → t.DiagonalSafe groups)
  (below : ∀ group ∈ groups, ∀ axis ∈ group, axis < rank) (ha : a < rank)

include safe below ha

theorem exists_source : ∃ k, source? rank groups a = some k := by
  obtain ⟨y, -, reads, -⟩ := exists_read_index (fun _ => 1) (fun _ => 0) safe below
    (fun _ _ _ _ _ _ => rfl) fun _ _ => Nat.one_pos
  obtain ⟨k, hk, -⟩ := Option.map_eq_some_iff.1 (reads a ha)
  exact ⟨k, hk⟩

/-- With two coordinates for the axes tied to the source, and one for the others, an axis that is
not tied to it has no room for its second coordinate. -/
theorem tied_source (hk : source? rank groups a = some k) : Tied groups a k := by
  classical
  have shared : ∀ group ∈ groups, ∀ a ∈ group, ∀ b ∈ group,
      (if Tied groups a k then 2 else 1) = if Tied groups b k then 2 else 1 := by
    intro group hm a ha b hb
    have joined : Tied groups a b := .rel _ _ ⟨group, hm, ha, hb⟩
    have iff : Tied groups a k ↔ Tied groups b k :=
      ⟨fun h => .trans _ _ _ (.symm _ _ joined) h, fun h => .trans _ _ _ joined h⟩
    simp only [iff]
  have within : Assignment.Within (fun axis => if axis = k then 1 else 0)
      (fun axis => if Tied groups axis k then 2 else 1) (staying rank groups) := by
    intro axis _
    by_cases self : axis = k
    · simp [self, show Tied groups k k from .refl k]
    · simp only [if_neg self]
      split <;> exact Nat.zero_lt_succ _
  obtain ⟨y, inside, reads, -⟩ := exists_read_index _ _ safe below shared within
  have room : y a < if Tied groups a k then 2 else 1 := inside a (List.mem_range.2 ha)
  have read := reads a ha
  rw [hk, Option.map_some, if_pos rfl] at read
  rw [← Option.some.inj read] at room
  by_contra free
  rw [if_neg free] at room
  exact Nat.lt_irrefl 1 room

theorem eq_source (hk : source? rank groups a = some k) {other : Nat}
    (stays : other ∈ staying rank groups) (joined : Tied groups a other) : other = k := by
  obtain ⟨y, -, reads, agree⟩ := exists_read_index (fun _ => 2)
    (fun axis => if axis = other then 1 else 0) safe below (fun _ _ _ _ _ _ => rfl)
    fun axis _ => by dsimp only; split <;> decide
  have readOther := reads other (mem_staying.1 stays).1
  have readSource := reads a ha
  rw [source?_of_mem_staying stays, Option.map_some, if_pos rfl] at readOther
  rw [hk, Option.map_some] at readSource
  by_contra differ
  rw [if_neg fun same => differ same.symm, eq_of_tied y agree joined, ← readOther] at readSource
  cases readSource

end Sources

theorem untangled_of_safe (safe : ∀ t : Tensor (List Nat), t.rank = rank → t.DiagonalSafe groups)
    (below : ∀ group ∈ groups, ∀ axis ∈ group, axis < rank) : Untangled rank groups := by
  intro a ha
  obtain ⟨k, hk⟩ := exists_source safe below ha
  exact ⟨k, hk, tied_source safe below ha hk, fun _ => eq_source safe below ha hk⟩

end Tangles

theorem diagonalSafe_of_untangled (t : Tensor α)
    (h : (∃ group ∈ groups, ∃ axis ∈ group, t.rank ≤ axis) ∨ Untangled t.rank groups) :
    t.DiagonalSafe groups := by
  by_cases fit : Fit t.shape groups
  · obtain ⟨group, hm, axis, ha, out⟩ | untangled := h
    · exact absurd (fit.lt_length hm ha) (Nat.not_lt.2 out)
    · exact .inr (isDiagonal_of_untangled fit untangled)
  · exact .inl (exists_diagonal_eq_error fit)

/-- The diagonal is refused exactly when some group names an axis out of range or axes of
different sizes. It never reads out of range, and never an entry off the diagonal, for the
tensors of a rank, exactly when the groups name an axis that none of them has or are untangled.
So it is along groups without common axes, whatever the tensor. -/
theorem diagonal_safe_iff (rank : Nat) (groups : List (List Nat)) :
    (∀ (α : Type) (t : Tensor α), (∃ problem, t.diagonal groups = .error (.backend problem)) ↔
      ¬Fit t.shape groups) ∧
    ((∀ (α : Type) (t : Tensor α), t.rank = rank → t.DiagonalSafe groups) ↔
      (∃ group ∈ groups, ∃ axis ∈ group, rank ≤ axis) ∨ Untangled rank groups) ∧
    (groups.Pairwise List.Disjoint → ∀ (α : Type) (t : Tensor α), t.DiagonalSafe groups) := by
  refine ⟨fun α t => ⟨?_, exists_diagonal_eq_error⟩, ⟨fun safe => ?_, ?_⟩, fun disjoint α t => ?_⟩
  · rintro ⟨problem, refused⟩ fit
    exact orFault_ne_backend ((diagonal_eq_gather? fit).symm.trans refused)
  · exact (exists_le_or_lt rank groups).imp_right (untangled_of_safe (safe (List Nat)))
  · rintro safe α t rfl
    exact diagonalSafe_of_untangled t safe
  · refine diagonalSafe_of_untangled t ?_
    exact (exists_le_or_lt t.rank groups).imp_right (untangled_of_disjoint disjoint)

/-- Two groups with an axis in common: the last axis is read at the coordinate of the first, out
of range in one tensor and off the diagonal in another. -/
theorem not_diagonal_safe :
    let narrow : Tensor Nat := ⟨[2, 1, 1, 1], #[5, 7], rfl⟩
    let wide : Tensor Nat := ⟨[2, 2, 2, 2], Array.range 16, rfl⟩
    narrow.diagonal [[1, 2], [2, 3]] = .error (.fault .unreadableEntry) ∧
      wide.diagonal [[1, 2], [2, 3]] = .ok ⟨[2, 2], #[0, 6, 9, 15], rfl⟩ ∧
      ¬narrow.DiagonalSafe [[1, 2], [2, 3]] ∧ ¬wide.DiagonalSafe [[1, 2], [2, 3]] := by
  intro narrow wide
  have fault : narrow.diagonal [[1, 2], [2, 3]] = .error (.fault .unreadableEntry) := rfl
  have read : wide.diagonal [[1, 2], [2, 3]] = .ok ⟨[2, 2], #[0, 6, 9, 15], rfl⟩ := rfl
  refine ⟨fault, read, ?_, ?_⟩
  · rintro (⟨problem, refused⟩ | ⟨u, hu, -⟩)
    · cases fault.symm.trans refused
    · cases fault.symm.trans hu
  · rintro (⟨problem, refused⟩ | ⟨u, hu, isDiagonal⟩)
    · cases read.symm.trans refused
    · obtain rfl := Except.ok.inj (read.symm.trans hu)
      obtain ⟨source, hsource, agree, entry⟩ := isDiagonal [1, 0] rfl
      obtain ⟨place, hplace⟩ := Option.isSome_iff_exists.1 hsource
      have nine : some 9 = (Array.range 16)[place]? := by rwa [get?, get?, hplace] at entry
      obtain ⟨below, nine⟩ := Array.getElem?_eq_some_iff.1 nine.symm
      rw [← Array.getElem_range below, nine] at hplace
      obtain rfl : [1, 0, 0, 1] = source := (unravel_of_offset? hplace).2
      exact absurd (agree [2, 3] (by decide) 2 (by decide) 3 (by decide)) (by decide)

end Tensor

end Einsum
