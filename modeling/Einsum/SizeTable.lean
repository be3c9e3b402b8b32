import Einsum.Error
import Einsum.Estimate

/-! The size bound to each label, in the order in which labels were first seen.
A label is bound once. Offering another size later is an error and changes nothing;
labels without a binding count as size one. -/

namespace Einsum

structure SizeTable where
  entries : List (Label × Nat)
deriving DecidableEq, Repr

namespace SizeTable

def empty : SizeTable := ⟨[]⟩

def get? (table : SizeTable) (c : Label) : Option Nat := table.entries.lookup c

/-- Binds `c`, or holds `size` against its binding. -/
def bind (table : SizeTable) (c : Label) (size : Nat) : Except Error SizeTable :=
  match table.get? c with
  | none => .ok ⟨table.entries ++ [(c, size)]⟩
  | some expected =>
    if expected = size then .ok table else .error (.sizeMismatch c expected size)

def size (table : SizeTable) (c : Label) : Nat := (table.get? c).getD 1

def shape (table : SizeTable) (labels : Labels) : List Nat := labels.map table.size

def volume (table : SizeTable) (labels : Labels) : Estimate :=
  Estimate.product (labels.map fun c => Estimate.ofNat (table.size c))

theorem bind_of_get?_eq_none {table : SizeTable} {c : Label} (h : table.get? c = none) (size : Nat) :
    table.bind c size = .ok ⟨table.entries ++ [(c, size)]⟩ := by
  simp [bind, h]

theorem bind_of_get?_eq_some {table : SizeTable} {c : Label} {expected : Nat}
    (h : table.get? c = some expected) (size : Nat) :
    table.bind c size =
      if expected = size then .ok table else .error (.sizeMismatch c expected size) := by
  simp [bind, h]

end SizeTable

end Einsum
