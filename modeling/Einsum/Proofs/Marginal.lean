import Mathlib.Algebra.BigOperators.Group.Finset.Sigma
import Mathlib.Algebra.BigOperators.Ring.Finset
import Einsum.Tensor

/-! Sums over the indices of labels.
An assignment gives every label an index. `marginal` sums a function of assignments over
the indices below their sizes of some labels and leaves a function of the others. The
order of the labels does not matter, two lists of labels may be summed one after the other,
and what does not depend on the labels comes out of the sum. -/

namespace Einsum

abbrev Assignment (ι : Type) := ι → Nat

variable {ι α : Type} [DecidableEq ι]

/-- Gives the labels the indices of a list. -/
def Assignment.set (x : Assignment ι) : List ι → List Nat → Assignment ι
  | c :: labels, i :: index => Assignment.set (Function.update x c i) labels index
  | _, _ => x

theorem Assignment.set_of_notMem {x : Assignment ι} {labels : List ι} {index : List Nat} {c : ι}
    (h : c ∉ labels) : x.set labels index c = x c := by
  induction labels generalizing x index with
  | nil => rfl
  | cons d labels ih =>
    rw [List.mem_cons, not_or] at h
    cases index with
    | nil => rfl
    | cons i index => rw [Assignment.set, ih h.2, Function.update_of_ne h.1]

theorem Assignment.map_set {x : Assignment ι} {labels : List ι} {index : List Nat}
    (nodup : labels.Nodup) (length : index.length = labels.length) :
    labels.map (x.set labels index) = index := by
  induction labels generalizing x index with
  | nil => exact (List.length_eq_zero_iff.1 length).symm
  | cons c labels ih =>
    obtain ⟨hc, nodup⟩ := List.nodup_cons.1 nodup
    cases index with
    | nil => simp at length
    | cons i index =>
      rw [List.map_cons, Assignment.set, Assignment.set_of_notMem hc, Function.update_self,
        ih nodup (by simpa using length)]

/-- The sum of `f` over the indices of the labels, a function of the other labels. -/
def marginal [AddCommMonoid α] (size : ι → Nat) : List ι → (Assignment ι → α) → Assignment ι → α
  | [], f, x => f x
  | c :: labels, f, x =>
    ∑ i ∈ Finset.range (size c), marginal size labels f (Function.update x c i)

section Additive

variable [AddCommMonoid α] {size : ι → Nat} {f g : Assignment ι → α} {x : Assignment ι}

theorem marginal_append (first second : List ι) :
    marginal size (first ++ second) f = marginal size first (marginal size second f) := by
  induction first with
  | nil => rfl
  | cons c first ih => funext x; simp only [List.cons_append, marginal, ih]

theorem marginal_perm {first second : List ι} (h : first.Perm second) :
    marginal size first f = marginal size second f := by
  induction h with
  | nil => rfl
  | cons c _ ih => funext x; simp only [marginal, ih]
  | swap c d labels =>
    funext x
    by_cases hcd : c = d
    · rw [hcd]
    · simp only [marginal]
      rw [Finset.sum_comm]
      simp only [Function.update_comm hcd]
  | trans _ _ ih₁ ih₂ => exact ih₁.trans ih₂

/-- Only assignments within the sizes matter that agree with `x` outside the labels. -/
theorem marginal_congr {labels : List ι}
    (h : ∀ y, (∀ c ∈ labels, y c < size c) → (∀ c, c ∉ labels → y c = x c) → f y = g y) :
    marginal size labels f x = marginal size labels g x := by
  induction labels generalizing x with
  | nil => exact h x (by simp) fun _ _ => rfl
  | cons c labels ih =>
    refine Finset.sum_congr rfl fun i hi => ih fun y inside outside => h y ?_ ?_
    · intro d hd
      by_cases hdl : d ∈ labels
      · exact inside d hdl
      · obtain rfl : d = c := (List.mem_cons.1 hd).resolve_right hdl
        rw [outside d hdl, Function.update_self]
        exact Finset.mem_range.1 hi
    · intro d hd
      rw [List.mem_cons, not_or] at hd
      rw [outside d hd.2, Function.update_of_ne hd.1]

theorem marginal_zero (labels : List ι) :
    marginal size labels (fun _ => (0 : α)) = fun _ => 0 := by
  induction labels with
  | nil => rfl
  | cons c labels ih => funext x; simp [marginal, ih]

theorem marginal_eq_zero {labels : List ι} (h : ∀ y, (∀ c, c ∉ labels → y c = x c) → f y = 0) :
    marginal size labels f x = 0 := by
  rw [marginal_congr fun y _ outside => h y outside, marginal_zero]

theorem sum_range_mul (m n : Nat) (f : Nat → Nat → α) :
    ∑ i ∈ Finset.range m, ∑ j ∈ Finset.range n, f i j =
      ∑ k ∈ Finset.range (m * n), f (k / n) (k % n) := by
  induction m with
  | zero => simp
  | succ m ih =>
    rw [Finset.sum_range_succ, Nat.succ_mul, Finset.sum_range_add, ih]
    congr 1
    refine Finset.sum_congr rfl fun j hj => ?_
    have hj := Finset.mem_range.1 hj
    rw [Nat.mul_comm m n, Nat.mul_add_div (by omega), Nat.mul_add_mod, Nat.div_eq_of_lt hj,
      Nat.mod_eq_of_lt hj, Nat.add_zero]

/-- The sum over the places of a tensor whose axes carry the labels. -/
theorem marginal_eq_sum_unravel (labels : List ι) :
    marginal size labels f x = ∑ place ∈ Finset.range (capacity (labels.map size)),
      f (x.set labels (unravel (labels.map size) place)) := by
  induction labels generalizing x with
  | nil => exact (Finset.sum_range_one fun _ => f x).symm
  | cons c labels ih =>
    simp only [marginal, ih, List.map_cons, capacity_cons, unravel, Assignment.set]
    exact sum_range_mul _ _ fun i place =>
      f (Assignment.set (Function.update x c i) labels (unravel (labels.map size) place))

end Additive

/-- A factor that ignores the labels comes out of the sum. -/
theorem marginal_mul [CommSemiring α] {size : ι → Nat} {f g : Assignment ι → α} {labels : List ι}
    (h : ∀ c ∈ labels, ∀ y i, g (Function.update y c i) = g y) :
    marginal size labels (fun y => f y * g y) = fun x => marginal size labels f x * g x := by
  induction labels with
  | nil => rfl
  | cons c labels ih =>
    funext x
    simp only [marginal, ih fun d hd => h d (List.mem_cons_of_mem c hd), h c List.mem_cons_self,
      Finset.sum_mul]

end Einsum
