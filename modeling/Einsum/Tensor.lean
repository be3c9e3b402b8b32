import Einsum.Error

/-! Dense tensors in row-major order.
An entry is named by its index, one coordinate per axis; `offset?` gives its place in the
data and `unravel` the index at a place. A tensor is made by tabulating its entries over
all indices; an entry that cannot be computed leaves no tensor. `get?_of_tabulate?` and
`exists_tabulate?_eq_some` say so, and nothing else needs the layout of the data.
A shape has a `span`, which bounds how far apart two places can be, empty axes or not. -/

namespace Einsum

/-- The number of entries that a shape has room for. -/
def capacity (shape : List Nat) : Nat := shape.foldr (· * ·) 1

@[simp] theorem capacity_nil : capacity [] = 1 := rfl

@[simp] theorem capacity_cons (size : Nat) (shape : List Nat) :
    capacity (size :: shape) = size * capacity shape := rfl

@[simp] theorem capacity_append (a b : List Nat) : capacity (a ++ b) = capacity a * capacity b := by
  induction a with
  | nil => simp
  | cons size a ih => simp [ih, Nat.mul_assoc]

structure Tensor (α : Type) where
  shape : List Nat
  data : Array α
  size_eq : data.size = capacity shape

/-- The product of the sizes of a shape, a zero counted as one. -/
def span (shape : List Nat) : Nat := capacity (shape.map (max 1))

@[simp] theorem span_cons (size : Nat) (shape : List Nat) :
    span (size :: shape) = max 1 size * span shape := by
  simp [span]

@[simp] theorem span_append (a b : List Nat) : span (a ++ b) = span a * span b := by
  simp [span]

theorem span_pos (shape : List Nat) : 0 < span shape := by
  induction shape with
  | nil => simp [span]
  | cons size shape ih => exact span_cons size shape ▸ Nat.mul_pos (by omega) ih

theorem capacity_le_span (shape : List Nat) : capacity shape ≤ span shape := by
  induction shape with
  | nil => simp [span]
  | cons size shape ih =>
    rw [span_cons, capacity_cons]
    exact Nat.mul_le_mul (Nat.le_max_right 1 size) ih

/-- Whether steps along the axes of a shape fit a signed word of 64 bits. A zero size does
not help: an empty tensor still steps along its other axes. -/
def isAddressable (shape : List Nat) : Bool := span shape < UInt64.size / 2

/-- The place of an index, if every coordinate is below its size. -/
def offset? : (shape index : List Nat) → Option Nat
  | [], [] => some 0
  | size :: shape, i :: index =>
    if i < size then (offset? shape index).map (i * capacity shape + ·) else none
  | _, _ => none

def unravel : (shape : List Nat) → (place : Nat) → List Nat
  | [], _ => []
  | _ :: shape, place => place / capacity shape :: unravel shape (place % capacity shape)

theorem offset?_unravel {shape : List Nat} {place : Nat} (h : place < capacity shape) :
    offset? shape (unravel shape place) = some place := by
  induction shape generalizing place with
  | nil => simp_all [offset?, unravel]
  | cons size shape ih =>
    rw [capacity_cons] at h
    have hp : 0 < capacity shape := Nat.pos_of_ne_zero fun h0 => by simp [h0] at h
    have hq : place / capacity shape < size := Nat.div_lt_of_lt_mul (Nat.mul_comm size _ ▸ h)
    rw [unravel, offset?, if_pos hq, ih (Nat.mod_lt _ hp), Option.map_some, Nat.div_add_mod']

theorem unravel_of_offset? {shape index : List Nat} {place : Nat}
    (h : offset? shape index = some place) :
    place < capacity shape ∧ unravel shape place = index := by
  induction shape generalizing index place with
  | nil =>
    cases index with
    | nil => simp_all [offset?, unravel]
    | cons i index => simp [offset?] at h
  | cons size shape ih =>
    cases index with
    | nil => simp [offset?] at h
    | cons i index =>
      rw [offset?] at h
      split at h
      · obtain ⟨rest, hr, rfl⟩ := Option.map_eq_some_iff.1 h
        obtain ⟨hlt, hun⟩ := ih hr
        have hp : 0 < capacity shape := Nat.zero_lt_of_lt hlt
        constructor
        · rw [capacity_cons]
          calc i * capacity shape + rest < i * capacity shape + capacity shape := by omega
            _ = (i + 1) * capacity shape := by rw [Nat.succ_mul]
            _ ≤ size * capacity shape := Nat.mul_le_mul_right _ (by omega)
        · rw [unravel, Nat.mul_comm, Nat.mul_add_div hp, Nat.div_eq_of_lt hlt,
            Nat.mul_add_mod, Nat.mod_eq_of_lt hlt, hun, Nat.add_zero]
      · simp at h

theorem getElem?_of_mapM_eq_some {α β : Type} {f : α → Option β} {xs : List α} {ys : List β}
    (h : xs.mapM f = some ys) (k : Nat) : ys[k]? = xs[k]?.bind f := by
  induction xs generalizing ys k with
  | nil => simp_all
  | cons x xs ih =>
    simp only [List.mapM_cons, bind, Option.bind_eq_some_iff, pure, Option.some.injEq] at h
    obtain ⟨y, hy, zs, hz, rfl⟩ := h
    cases k with
    | zero => simp [hy]
    | succ k => simpa using ih hz k

theorem exists_mapM_eq_some {α β : Type} {f : α → Option β} {xs : List α}
    (h : ∀ x ∈ xs, (f x).isSome) : ∃ ys, xs.mapM f = some ys := by
  induction xs with
  | nil => exact ⟨[], rfl⟩
  | cons x xs ih =>
    obtain ⟨y, hy⟩ := Option.isSome_iff_exists.1 (h x (by simp))
    obtain ⟨ys, hys⟩ := ih fun x' hx => h x' (by simp [hx])
    exact ⟨y :: ys, by simp [hy, hys]⟩

namespace Tensor

variable {α : Type}

def rank (t : Tensor α) : Nat := t.shape.length

def ofData? (shape : List Nat) (data : Array α) : Option (Tensor α) :=
  if h : data.size = capacity shape then some ⟨shape, data, h⟩ else none

def scalar (value : α) : Tensor α := ⟨[], #[value], rfl⟩

def get? (t : Tensor α) (index : List Nat) : Option α :=
  (offset? t.shape index).bind fun place => t.data[place]?

def tabulate? (shape : List Nat) (entry : List Nat → Option α) : Option (Tensor α) := do
  let entries ← (List.range (capacity shape)).mapM fun place => entry (unravel shape place)
  ofData? shape entries.toArray

def reshape? (t : Tensor α) (shape : List Nat) : Option (Tensor α) := ofData? shape t.data

/-- The tensor of the given shape whose entries are entries of `t`: axis `a` of `t` is read
at coordinate `source[a]` of the result. -/
def gather? (t : Tensor α) (shape source : List Nat) : Option (Tensor α) :=
  tabulate? shape fun index => do t.get? (← source.mapM fun axis => index[axis]?)

/-- A tensor that could not be made means that some entry was out of reach. -/
def orFault : Option (Tensor α) → Except Error (Tensor α)
  | some t => .ok t
  | none => .error (.fault .unreadableEntry)

@[simp] theorem ofData?_data (t : Tensor α) : ofData? t.shape t.data = some t := by
  simp [ofData?, t.size_eq]

theorem shape_of_ofData? {shape : List Nat} {data : Array α} {t : Tensor α}
    (h : ofData? shape data = some t) : t.shape = shape ∧ t.data = data := by
  rw [ofData?] at h
  split at h
  · cases h
    exact ⟨rfl, rfl⟩
  · cases h

theorem shape_of_tabulate? {shape : List Nat} {entry : List Nat → Option α} {t : Tensor α}
    (h : tabulate? shape entry = some t) : t.shape = shape := by
  simp only [tabulate?, bind, Option.bind_eq_some_iff] at h
  obtain ⟨entries, -, ht⟩ := h
  exact (shape_of_ofData? ht).1

theorem get?_of_tabulate? {shape : List Nat} {entry : List Nat → Option α} {t : Tensor α}
    (h : tabulate? shape entry = some t) {index : List Nat} (hi : (offset? shape index).isSome) :
    t.get? index = entry index := by
  simp only [tabulate?, bind, Option.bind_eq_some_iff] at h
  obtain ⟨entries, he, ht⟩ := h
  obtain ⟨hs, hd⟩ := shape_of_ofData? ht
  obtain ⟨place, hp⟩ := Option.isSome_iff_exists.1 hi
  obtain ⟨hlt, hu⟩ := unravel_of_offset? hp
  rw [get?, hs, hp, hd, Option.bind_some, List.getElem?_toArray, getElem?_of_mapM_eq_some he,
    List.getElem?_range hlt, Option.bind_some, hu]

/-- A tensor can be tabulated as soon as each of its entries can be computed. -/
theorem exists_tabulate?_eq_some {shape : List Nat} {entry : List Nat → Option α}
    (h : ∀ index, (offset? shape index).isSome → (entry index).isSome) :
    ∃ t, tabulate? shape entry = some t := by
  have hsome : ∀ place ∈ List.range (capacity shape), (entry (unravel shape place)).isSome :=
    fun place hp => h _ (by simp [offset?_unravel (List.mem_range.1 hp)])
  obtain ⟨entries, he⟩ := exists_mapM_eq_some hsome
  have hl : entries.length = capacity shape := by
    apply Nat.le_antisymm
    · apply List.getElem?_eq_none_iff.1
      rw [getElem?_of_mapM_eq_some he, List.getElem?_eq_none (by simp), Option.bind_none]
    · refine Nat.le_of_not_lt fun hlt => ?_
      have hnone : entries[entries.length]? = none := List.getElem?_eq_none (Nat.le_refl _)
      rw [getElem?_of_mapM_eq_some he, List.getElem?_range hlt, Option.bind_some] at hnone
      simpa [hnone] using hsome _ (List.mem_range.2 hlt)
  exact ⟨⟨shape, entries.toArray, by simpa using hl⟩, by simp [tabulate?, he, ofData?, hl]⟩

end Tensor

end Einsum
