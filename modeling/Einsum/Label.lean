/-! Axis labels and blank characters.
A label names one axis. Written expressions use the ASCII letters only, in both cases;
an expression given as data may use any character. -/

namespace Einsum

abbrev Label := Char

/-- The characters that name an axis in a written expression. -/
def isLabel (c : Char) : Bool := c.isAlpha

/-- First and last code points of the runs with the Unicode property White_Space. -/
def blankRuns : List (Nat × Nat) :=
  [(0x09, 0x0D), (0x20, 0x20), (0x85, 0x85), (0xA0, 0xA0), (0x1680, 0x1680),
   (0x2000, 0x200A), (0x2028, 0x2029), (0x202F, 0x202F), (0x205F, 0x205F), (0x3000, 0x3000)]

/-- Blank characters stand anywhere in a written expression and mean nothing. -/
def isBlank (c : Char) : Bool :=
  blankRuns.any fun (first, last) => first ≤ c.toNat && c.toNat ≤ last

/-- Twenty-five code points are blank. -/
example : (blankRuns.map fun (first, last) => last + 1 - first).sum = 25 := by decide

end Einsum
