import Einsum.Run.Sequential
import Einsum.Proofs.Meaning

/-! What the actions of a plan do to labels and to entries.
`Relabels` says which labels an action finds on the tensors that it reads and which ones it
leaves. On tensors of such shapes an action succeeds, a contraction as far as its result is
addressable, and the new entries are sums of products of the old ones. -/

namespace Einsum

section Positions

variable {ι : Type} [DecidableEq ι] {labels summed : List ι}

theorem below_positions : ∀ axis ∈ positions (· ∈ summed) labels, axis < labels.length := by
  intro axis hm
  obtain ⟨c, hc, -⟩ := mem_positions.1 hm
  exact (List.getElem?_eq_some_iff.1 hc).1

theorem carries_positions (axis : Nat) (c : ι) (h : labels[axis]? = some c) :
    axis ∈ positions (· ∈ summed) labels ↔ c ∈ summed := by
  rw [mem_positions]
  simp [h]

end Positions

theorem map_eq_pair_iff {β γ : Type} {f : β → γ} {xs : List β} {y z : γ} :
    xs.map f = [y, z] ↔ ∃ a b, xs = [a, b] ∧ f a = y ∧ f b = z := by
  constructor
  · intro h
    obtain ⟨a, rest, rfl, ha, h⟩ := List.map_eq_cons_iff.1 h
    obtain ⟨b, rfl, hb⟩ := List.map_eq_singleton_iff.1 h
    exact ⟨a, b, rfl, ha, hb⟩
  · rintro ⟨a, b, rfl, rfl, rfl⟩
    rfl

namespace Pairing

variable {left right : Labels} {keep : Label → Bool} {c : Label}

theorem mem_result_split : c ∈ (split left right keep).result ↔
    (c ∈ left ∧ c ∈ right ∧ keep c = true) ∨ (c ∈ left ∧ c ∉ right) ∨ (c ∈ right ∧ c ∉ left) := by
  simp only [result, List.mem_append, mem_batch_split, mem_leftOnly_split, mem_rightOnly_split,
    or_assoc]

theorem nodup_summed_split (leftNodup : left.Nodup) : (split left right keep).summed.Nodup :=
  leftNodup.filter _

theorem nodup_result_split (leftNodup : left.Nodup) (rightNodup : right.Nodup) :
    (split left right keep).result.Nodup := by
  have fromLeft : ((split left right keep).batch ++ (split left right keep).leftOnly).Nodup :=
    (List.nodup_append.1 ((leftLabels_split keep left right).nodup_iff.2 leftNodup)).1
  refine List.nodup_append.2 ⟨fromLeft, rightNodup.filter _, ?_⟩
  rintro c hc _ hr rfl
  have hl : c ∈ left := by
    rw [List.mem_append, mem_batch_split, mem_leftOnly_split] at hc
    exact hc.elim (·.1) (·.1)
  exact (mem_rightOnly_split.1 hr).2 hl

end Pairing

namespace Action

def summed : Action → Labels
  | .reduceSum _ _ summed => summed
  | .contract _ _ labels _ _ => labels.summed
  | .diagonalize .. | .permute .. => []

/-- An action turns tensors that carry the labels `read` into one that carries `made`. -/
inductive Relabels : Action → (read : List Labels) → (made : Labels) → Prop
  | diagonalize (id : Nat) (labels : Labels) :
    Relabels (.diagonalize id labels.diagonals) [labels] labels.distinct
  | reduceSum {labels summed : Labels} (id : Nat) (nodup : labels.Nodup) (distinct : summed.Nodup)
      (subset : summed ⊆ labels) :
    Relabels (.reduceSum id (positions (· ∈ summed) labels) summed) [labels]
      (labels.filter (· ∉ summed))
  | contract {left right : Labels} (a b : Nat) (keep : Label → Bool) (flops : Estimate)
      (leftNodup : left.Nodup) (rightNodup : right.Nodup) :
    Relabels (.contract a b (.split left right keep)
      (.ofPairing left right (.split left right keep)) flops) [left, right]
      (Pairing.split left right keep).result
  | permute {labels target : Labels} (id : Nat) (nodup : labels.Nodup)
      (perm : target.Perm labels) :
    Relabels (.permute id (target.map fun c => labels.idxOf c)) [labels] target

namespace Relabels

variable {action : Action} {read : List Labels} {made : Labels}

theorem nodup_summed (h : action.Relabels read made) : action.summed.Nodup := by
  cases h with
  | diagonalize id labels => exact List.nodup_nil
  | reduceSum id nodup distinct subset => exact distinct
  | contract a b keep flops leftNodup rightNodup => exact Pairing.nodup_summed_split leftNodup
  | permute id nodup perm => exact List.nodup_nil

theorem nodup_made (h : action.Relabels read made) : made.Nodup := by
  cases h with
  | diagonalize id labels => exact nodup_eraseDups labels
  | reduceSum id nodup distinct subset => exact nodup.filter _
  | contract a b keep flops leftNodup rightNodup =>
    exact Pairing.nodup_result_split leftNodup rightNodup
  | permute id nodup perm => exact perm.nodup_iff.2 nodup

/-- No label gets lost but those that are summed, and none comes in. -/
theorem mem_read_iff (h : action.Relabels read made) {c : Label} :
    (∃ labels ∈ read, c ∈ labels) ↔ c ∈ action.summed ∨ c ∈ made := by
  cases h with
  | diagonalize id labels => simp [summed, Labels.mem_distinct]
  | @reduceSum labels summed id nodup distinct subset =>
    have hs : c ∈ summed → c ∈ labels := fun hc => subset hc
    by_cases hc : c ∈ summed
    · simp [Action.summed, hc, hs hc]
    · simp [Action.summed, hc]
  | @contract left right a b keep flops leftNodup rightNodup =>
    simp only [List.exists_mem_cons_iff, List.not_mem_nil, false_and, exists_false, or_false,
      Action.summed, Pairing.mem_summed_split, Pairing.mem_result_split]
    by_cases hl : c ∈ left <;> by_cases hr : c ∈ right <;> cases keep c <;> simp [hl, hr]
  | permute id nodup perm => simp [summed, perm.mem_iff]

theorem notMem_made (h : action.Relabels read made) {c : Label} (hc : c ∈ action.summed) :
    c ∉ made := by
  cases h with
  | diagonalize id labels => cases hc
  | reduceSum id nodup distinct subset =>
    intro hm
    exact of_decide_eq_true (List.mem_filter.1 hm).2 hc
  | contract a b keep flops leftNodup rightNodup =>
    obtain ⟨hl, hr, hk⟩ := Pairing.mem_summed_split.1 hc
    simp [Pairing.mem_result_split, hl, hr, hk]
  | permute id nodup perm => cases hc

section Apply

variable {α : Type} {size : Label → Nat} {factors : List (Factor α)}
  (relabels : action.Relabels (factors.map (·.labels)) made)
  (fits : ∀ factor ∈ factors, factor.Fits size)

include relabels fits

/-- An action succeeds on tensors that it fits, unless it makes one too large. -/
theorem apply_spec [Zero α] [Add α] [Mul α]
    (addressable : action.isContraction → isAddressable (made.map size)) :
    ∃ u, action.apply (Tensor.backend α) (factors.map (·.tensor)) = .ok u ∧
      u.shape = made.map size := by
  generalize hread : factors.map (·.labels) = read at relabels
  cases relabels with
  | diagonalize id labels =>
    obtain ⟨factor, rfl, rfl⟩ := List.map_eq_singleton_iff.1 hread
    obtain ⟨u, hu, hs, -⟩ := Tensor.diagonal_spec (fits factor (by simp))
    exact ⟨u, hu, hs⟩
  | @reduceSum labels summed id nodup distinct subset =>
    obtain ⟨factor, rfl, rfl⟩ := List.map_eq_singleton_iff.1 hread
    exact Tensor.sumOver_spec (fits factor (by simp)) nodup below_positions carries_positions
  | contract a b keep flops leftNodup rightNodup =>
    obtain ⟨left, right, rfl, rfl, rfl⟩ := map_eq_pair_iff.1 hread
    have named := ContractionAxes.named_ofPairing keep leftNodup rightNodup
    obtain ⟨u, hu, -, hs⟩ := Tensor.contract_spec named (fits left (by simp))
      (fits right (by simp)) leftNodup rightNodup (addressable rfl)
    exact ⟨u, hu, hs⟩
  | permute id nodup perm =>
    obtain ⟨factor, rfl, rfl⟩ := List.map_eq_singleton_iff.1 hread
    obtain ⟨u, hu, hs, -⟩ := Tensor.permute_spec (fits factor (by simp)) nodup
      (map_idxOf_perm nodup perm) (names_idxOf fun c hc => perm.mem_iff.1 hc)
    exact ⟨u, hu, hs⟩

theorem isAddressable_of_apply [Zero α] [Add α] [Mul α] {u : Tensor α}
    (hu : action.apply (Tensor.backend α) (factors.map (·.tensor)) = .ok u)
    (contraction : action.isContraction) : isAddressable (made.map size) := by
  generalize hread : factors.map (·.labels) = read at relabels
  cases relabels with
  | contract a b keep flops leftNodup rightNodup =>
    obtain ⟨left, right, rfl, rfl, rfl⟩ := map_eq_pair_iff.1 hread
    have named := ContractionAxes.named_ofPairing keep leftNodup rightNodup
    exact Tensor.isAddressable_of_contract named (fits left (by simp)) (fits right (by simp)) hu
  | diagonalize | reduceSum | permute => cases contraction

theorem shape_of_apply [Zero α] [Add α] [Mul α] {u : Tensor α}
    (hu : action.apply (Tensor.backend α) (factors.map (·.tensor)) = .ok u) :
    u.shape = made.map size := by
  obtain ⟨v, hv, hs⟩ := apply_spec relabels fits (isAddressable_of_apply relabels fits hu)
  rwa [Except.ok.inj (hu.symm.trans hv)]

/-- The new entries are the products of those read, summed over the labels that go. -/
theorem entry_of_apply [CommSemiring α] {u : Tensor α}
    (hu : action.apply (Tensor.backend α) (factors.map (·.tensor)) = .ok u) :
    u.entry made = marginal size action.summed fun x => (factors.map (·.entry x)).prod := by
  have hs := shape_of_apply relabels fits hu
  have addressable := isAddressable_of_apply relabels fits hu
  generalize hread : factors.map (·.labels) = read at relabels
  cases relabels with
  | diagonalize id labels =>
    obtain ⟨factor, rfl, rfl⟩ := List.map_eq_singleton_iff.1 hread
    obtain ⟨v, hv, -, he⟩ := Tensor.diagonal_spec (fits factor (by simp))
    obtain rfl : u = v := Except.ok.inj (hu.symm.trans hv)
    simp only [summed, marginal, List.map_singleton, List.prod_singleton]
    exact Tensor.entry_eq_entry hs (fits factor (by simp))
      (fun x => forall_congr' fun c => by rw [Labels.mem_distinct]) he
  | @reduceSum labels summed id nodup distinct subset =>
    obtain ⟨factor, rfl, rfl⟩ := List.map_eq_singleton_iff.1 hread
    simp only [List.map_singleton, List.prod_singleton]
    exact Tensor.sumOver_entry (fits factor (by simp)) nodup below_positions carries_positions
      distinct subset hu
  | contract a b keep flops leftNodup rightNodup =>
    obtain ⟨left, right, rfl, rfl, rfl⟩ := map_eq_pair_iff.1 hread
    have named := ContractionAxes.named_ofPairing keep leftNodup rightNodup
    obtain ⟨v, hv, hc, -⟩ := Tensor.contract_spec named (fits left (by simp))
      (fits right (by simp)) leftNodup rightNodup (addressable rfl)
    obtain rfl : u = v := Except.ok.inj (hu.symm.trans hv)
    simp only [List.map_cons, List.map_nil, List.prod_cons, List.prod_nil, mul_one]
    exact Tensor.contracted?_entry named (fits left (by simp)) (fits right (by simp)) leftNodup
      rightNodup hc
  | @permute labels target id nodup perm =>
    obtain ⟨factor, rfl, rfl⟩ := List.map_eq_singleton_iff.1 hread
    obtain ⟨v, hv, -, he⟩ := Tensor.permute_spec (fits factor (by simp)) nodup
      (map_idxOf_perm nodup perm) (names_idxOf fun c hc => perm.mem_iff.1 hc)
    obtain rfl : u = v := Except.ok.inj (hu.symm.trans hv)
    simp only [summed, marginal, List.map_singleton, List.prod_singleton]
    exact Tensor.entry_eq_entry hs (fits factor (by simp))
      (fun x => Assignment.within_perm perm) he

end Apply

end Relabels

end Action

end Einsum
