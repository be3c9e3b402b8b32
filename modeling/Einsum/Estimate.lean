/-! Counts of elements and operations.
An estimate is a natural number clamped at `2^64 - 1`, and sums and products clamp again.
`toNat_add` and `toNat_mul` say that clamping early or late makes no difference to a sum
or a product of two. -/

namespace Einsum

/-- The largest count that is told apart from larger ones. -/
def Estimate.limit : Nat := UInt64.size - 1

@[ext] structure Estimate where
  toNat : Nat
  toNat_le : toNat ≤ Estimate.limit
deriving DecidableEq, Repr

namespace Estimate

def ofNat (n : Nat) : Estimate := ⟨min n limit, Nat.min_le_right ..⟩

instance (n : Nat) : OfNat Estimate n := ⟨ofNat n⟩
instance : Add Estimate := ⟨fun a b => ofNat (a.toNat + b.toNat)⟩
instance : Mul Estimate := ⟨fun a b => ofNat (a.toNat * b.toNat)⟩
instance : LE Estimate := ⟨fun a b => a.toNat ≤ b.toNat⟩
instance : LT Estimate := ⟨fun a b => a.toNat < b.toNat⟩

def infinite : Estimate := ⟨limit, Nat.le_refl _⟩

def sum (counts : List Estimate) : Estimate := counts.foldl (· + ·) 0

def product (counts : List Estimate) : Estimate := counts.foldl (· * ·) 1

@[simp] theorem toNat_ofNat (n : Nat) : (ofNat n).toNat = min n limit := rfl

theorem toNat_add (a b : Estimate) : (a + b).toNat = min (a.toNat + b.toNat) limit := rfl

theorem toNat_mul (a b : Estimate) : (a * b).toNat = min (a.toNat * b.toNat) limit := rfl

theorem ofNat_toNat (a : Estimate) : ofNat a.toNat = a :=
  Estimate.ext (Nat.min_eq_left a.toNat_le)

end Estimate

end Einsum
