import Einsum.Equation
import Einsum.Error

/-! Reading equations such as `ij,jk->ik`.
An equation is a list of groups separated by commas and, after an arrow, at most one more
group for the output; blanks stand anywhere but inside the arrow. The first violation from
the left is reported at its byte offset, and the number of groups is looked at last. -/

namespace Einsum.Equation

/-- The groups before the arrow, the first one apart as there is always one, and the output. -/
structure Groups where
  first : Labels
  others : List Labels
  output : Option Labels

/-- The labels after the arrow, from byte offset `position`. -/
def readOutput (position : Nat) : List Char → Except Error Labels
  | [] => .ok []
  | '-' :: '>' :: _ => .error (.arrow (.second position))
  | '-' :: _ => .error (.arrow (.unclosed position))
  | '>' :: _ => .error (.arrow (.unopened position))
  | c :: rest =>
    if isBlank c then readOutput (position + c.utf8Size) rest
    else if isLabel c then (c :: ·) <$> readOutput (position + c.utf8Size) rest
    else .error (.strayCharacter c position)

/-- The groups and the output, from byte offset `position`. -/
def readGroups (position : Nat) : List Char → Except Error Groups
  | [] => .ok ⟨[], [], none⟩
  | '-' :: '>' :: rest => do
    let output ← readOutput (position + 2) rest
    return ⟨[], [], some output⟩
  | '-' :: _ => .error (.arrow (.unclosed position))
  | '>' :: _ => .error (.arrow (.unopened position))
  | ',' :: rest => do
    let groups ← readGroups (position + 1) rest
    return ⟨[], groups.first :: groups.others, groups.output⟩
  | c :: rest =>
    if isBlank c then readGroups (position + c.utf8Size) rest
    else if isLabel c then do
      let groups ← readGroups (position + c.utf8Size) rest
      return { groups with first := c :: groups.first }
    else .error (.strayCharacter c position)

def ofChars (chars : List Char) (operands : Nat) : Except Error Equation :=
  if operands = 0 then .error .noOperands
  else if chars.all isBlank then .error .emptySubscripts
  else do
    let groups ← readGroups 0 chars
    let inputs := groups.first :: groups.others
    if inputs.length = operands then return ⟨inputs, groups.output⟩
    else .error (.operandCount inputs.length operands)

def ofText (text : String) (operands : Nat) : Except Error Equation :=
  ofChars text.toList operands

end Einsum.Equation
