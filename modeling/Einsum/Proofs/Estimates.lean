import Mathlib.Algebra.BigOperators.Ring.Finset
import Einsum.Cost

/-! Clamped counts.
A sum or a product that is clamped after every operation is the exact one clamped once, so
that the order of the operations makes no difference. What a contraction costs in total is
an exact number, clamped; the volumes in it are products of sizes. -/

namespace Einsum

namespace Estimate

theorem ofNat_add (m n : Nat) : ofNat m + ofNat n = ofNat (m + n) := by
  ext
  simp only [toNat_add, toNat_ofNat]
  omega

/-- A factor may be clamped before it is multiplied. -/
theorem min_mul_min (m n : Nat) : min (m * min n limit) limit = min (m * n) limit := by
  rcases Nat.le_total n limit with h | h
  · rw [Nat.min_eq_left h]
  · rw [Nat.min_eq_right h]
    rcases Nat.eq_zero_or_pos m with rfl | pos
    · rw [Nat.zero_mul, Nat.zero_mul]
    · have clamped : limit ≤ m * limit := Nat.le_mul_of_pos_left limit pos
      have exact : m * limit ≤ m * n := Nat.mul_le_mul_left m h
      omega

theorem ofNat_mul (m n : Nat) : ofNat m * ofNat n = ofNat (m * n) := by
  ext
  rw [toNat_mul, toNat_ofNat, toNat_ofNat, toNat_ofNat, min_mul_min, Nat.mul_comm, min_mul_min,
    Nat.mul_comm]

theorem zero_eq : (0 : Estimate) = ofNat 0 := rfl

theorem one_eq : (1 : Estimate) = ofNat 1 := rfl

theorem foldl_add_ofNat (counts : List Nat) (n : Nat) :
    (counts.map ofNat).foldl (· + ·) (ofNat n) = ofNat (n + counts.sum) := by
  induction counts generalizing n with
  | nil => rfl
  | cons m counts ih =>
    rw [List.map_cons, List.foldl_cons, ofNat_add, ih, List.sum_cons, Nat.add_assoc]

theorem sum_map_ofNat (counts : List Nat) : sum (counts.map ofNat) = ofNat counts.sum := by
  rw [sum, zero_eq, foldl_add_ofNat, Nat.zero_add]

theorem sum_eq (counts : List Estimate) : sum counts = ofNat (counts.map (·.toNat)).sum := by
  rw [← sum_map_ofNat, List.map_map]
  exact congrArg sum (List.map_id'' ofNat_toNat counts).symm

theorem sum_cons (a : Estimate) (counts : List Estimate) : sum (a :: counts) = a + sum counts := by
  rw [sum_eq, sum_eq, List.map_cons, List.sum_cons, ← ofNat_add, ofNat_toNat]

theorem product_map_ofNat (counts : List Nat) :
    product (counts.map ofNat) = ofNat counts.prod := by
  have start (n : Nat) : (counts.map ofNat).foldl (· * ·) (ofNat n) = ofNat (n * counts.prod) := by
    induction counts generalizing n with
    | nil => simp
    | cons m counts ih =>
      rw [List.map_cons, List.foldl_cons, ofNat_mul, ih, List.prod_cons, Nat.mul_assoc]
  rw [product, one_eq, start, Nat.one_mul]

theorem mul_zero (a : Estimate) : a * 0 = 0 := by
  ext
  simp [toNat_mul, zero_eq]

theorem add_zero (a : Estimate) : a + 0 = a := by
  rw [← ofNat_toNat a, zero_eq, ofNat_add, Nat.add_zero]

theorem zero_add (a : Estimate) : 0 + a = a := by
  rw [← ofNat_toNat a, zero_eq, ofNat_add, Nat.zero_add]

theorem add_assoc (a b c : Estimate) : a + b + c = a + (b + c) := by
  rw [← ofNat_toNat a, ← ofNat_toNat b, ← ofNat_toNat c]
  simp only [ofNat_add, Nat.add_assoc]

end Estimate

namespace SizeTable

variable {table : SizeTable} {labels labels' : Labels}

theorem volume_eq (table : SizeTable) (labels : Labels) :
    table.volume labels = .ofNat (table.shape labels).prod := by
  rw [volume, shape, ← Estimate.product_map_ofNat, List.map_map]
  rfl

theorem volume_append (table : SizeTable) (labels labels' : Labels) :
    table.volume (labels ++ labels') = table.volume labels * table.volume labels' := by
  rw [volume_eq, volume_eq, volume_eq, Estimate.ofNat_mul, shape, List.map_append, List.prod_append]
  rfl

/-- The volume depends on which labels there are, not on their order. -/
theorem volume_congr (nodup : labels.Nodup) (nodup' : labels'.Nodup)
    (same : ∀ c, c ∈ labels ↔ c ∈ labels') : table.volume labels = table.volume labels' := by
  have perm : labels.Perm labels' := (List.perm_ext_iff_of_nodup nodup nodup').2 same
  rw [volume_eq, volume_eq, shape, shape, (perm.map _).prod_eq]

end SizeTable

namespace Cost

theorem add_eq (a b : Cost) :
    a + b = ⟨a.flops + b.flops, a.memory + b.memory, a.total + b.total⟩ := rfl

theorem add_assoc (a b c : Cost) : a + b + c = a + (b + c) := by
  simp only [add_eq, Estimate.add_assoc]

theorem add_zero (a : Cost) : a + zero = a := by
  simp only [add_eq, zero, Estimate.add_zero]

theorem zero_add (a : Cost) : zero + a = a := by
  simp only [add_eq, zero, Estimate.zero_add]

end Cost

/-- What some operations and entries cost when each entry weighs `alpha` operations, every
count clamped once. -/
def Cost.clamped (alpha : Estimate) (flops memory : Nat) : Cost :=
  ⟨.ofNat flops, .ofNat memory, .ofNat (flops + alpha.toNat * memory)⟩

theorem Cost.weighted_ofNat (alpha : Estimate) (flops memory : Nat) :
    weighted (.ofNat flops) (.ofNat memory) alpha = clamped alpha flops memory := by
  have exact : Estimate.ofNat memory * alpha = .ofNat (alpha.toNat * memory) := by
    rw [← Estimate.ofNat_toNat alpha, Estimate.ofNat_mul, Nat.mul_comm, Estimate.ofNat_toNat]
  rw [weighted, clamped, exact, Estimate.ofNat_add]

theorem Cost.clamped_add (alpha : Estimate) (flops memory flops' memory' : Nat) :
    clamped alpha flops memory + clamped alpha flops' memory' =
      clamped alpha (flops + flops') (memory + memory') := by
  have total : flops + alpha.toNat * memory + (flops' + alpha.toNat * memory') =
      flops + flops' + alpha.toNat * (memory + memory') := by
    rw [Nat.mul_add]
    omega
  calc clamped alpha flops memory + clamped alpha flops' memory'
      = ⟨.ofNat flops + .ofNat flops', .ofNat memory + .ofNat memory',
          .ofNat (flops + alpha.toNat * memory) + .ofNat (flops' + alpha.toNat * memory')⟩ := rfl
    _ = clamped alpha (flops + flops') (memory + memory') := by
        rw [Estimate.ofNat_add, Estimate.ofNat_add, Estimate.ofNat_add, total, clamped]

theorem CostModel.contraction_ofNat (model : CostModel) (left right union result : Nat) :
    model.contraction (.ofNat left) (.ofNat right) (.ofNat union) (.ofNat result) =
      .clamped model.alpha (2 * union) (left + right + result) := by
  have two : (2 : Estimate) = .ofNat 2 := rfl
  rw [contraction, two, Estimate.ofNat_mul, Estimate.ofNat_add, Estimate.ofNat_add,
    Cost.weighted_ofNat, Nat.mul_comm]

end Einsum
