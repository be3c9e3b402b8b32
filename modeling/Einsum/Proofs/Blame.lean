import Einsum.Proofs.Grammar

/-! Which character of a malformed text is blamed.
The reader stops at the first character that it cannot use, and knows by then only whether an
arrow lies behind it. Here a violation is told by what stands before and after a character, for
every place of the text at once, and the reader blames the leftmost place. What carries the
proof is `Clean`: the text is cut at the reader's place and nothing before it is a violation. -/

namespace Einsum.Equation

/-- The bytes of a text in UTF-8: the offset of what follows it. -/
def offset (before : List Char) : Nat := (String.ofList before).utf8ByteSize

def HasArrow (text : List Char) : Prop := ['-', '>'] <:+: text

instance (text : List Char) : Decidable (HasArrow text) := inferInstanceAs (Decidable (_ <:+: _))

/-- What is wrong with a character that stands between `before` and `after`. -/
inductive Violation (before : List Char) : Char → List Char → Error → Prop
  | unclosed {after : List Char} (blunt : after.head? ≠ some '>') :
    Violation before '-' after (.arrow (.unclosed (offset before)))
  | second {after : List Char} (arrow : HasArrow before) :
    Violation before '-' ('>' :: after) (.arrow (.second (offset before)))
  | unopened {after : List Char} (loose : before.getLast? ≠ some '-') :
    Violation before '>' after (.arrow (.unopened (offset before)))
  | comma {after : List Char} (arrow : HasArrow before) :
    Violation before ',' after (.strayCharacter ',' (offset before))
  | stray {c : Char} {after : List Char} (dash : c ≠ '-') (tip : c ≠ '>') (comma : c ≠ ',')
      (odd : ¬ IsPlain c) :
    Violation before c after (.strayCharacter c (offset before))

/-- The character after the first `before` of a text is a violation. -/
def Violates (text before : List Char) (error : Error) : Prop :=
  ∃ c after, text = before ++ c :: after ∧ Violation before c after error

structure Leftmost (text before : List Char) (error : Error) : Prop where
  violates : Violates text before error
  first : ∀ before' error', Violates text before' error' → before.length ≤ before'.length

theorem offset_concat (before : List Char) (c : Char) :
    offset (before ++ [c]) = offset before + c.utf8Size := by
  rw [offset, String.ofList_append, String.utf8ByteSize_append, ← offset]
  exact congrArg _ String.utf8ByteSize_singleton

/-- A number stands in a message. -/
def Shows (message : String) (number : Nat) : Prop :=
  ∃ front back, message = front ++ toString number ++ back

namespace Violation

variable {before after : List Char} {c : Char} {error error' : Error}

theorem unique (h : Violation before c after error) (h' : Violation before c after error') :
    error = error' := by
  cases h <;> cases h' <;> simp_all

end Violation

theorem Leftmost.unique {text before before' : List Char} {error error' : Error}
    (h : Leftmost text before error) (h' : Leftmost text before' error') : error = error' := by
  have length : before.length = before'.length :=
    Nat.le_antisymm (h.first _ _ h'.violates) (h'.first _ _ h.violates)
  obtain ⟨c, after, whole, violation⟩ := h.violates
  obtain ⟨c', after', whole', violation'⟩ := h'.violates
  obtain ⟨rfl, rest⟩ := List.append_inj (whole.symm.trans whole') length
  obtain ⟨rfl, rfl⟩ := List.cons.inj rest
  exact violation.unique violation'

/-- The reader's place in a text, with no violation before it. -/
structure Clean (text before rest : List Char) : Prop where
  whole : text = before ++ rest
  first : ∀ before' error', Violates text before' error' → before.length ≤ before'.length

namespace Clean

variable {text before rest : List Char} {c : Char} {error : Error}

theorem step (clean : Clean text before (c :: rest))
    (fine : ∀ error, ¬ Violation before c rest error) : Clean text (before ++ [c]) rest := by
  refine ⟨by rw [clean.whole, List.append_assoc]; rfl, fun before' error' violates => ?_⟩
  rw [List.length_append]
  refine Nat.lt_of_le_of_ne (clean.first before' error' violates) fun length => ?_
  obtain ⟨c', after, whole, violation⟩ := violates
  obtain ⟨rfl, same⟩ := List.append_inj (clean.whole.symm.trans whole) length
  obtain ⟨rfl, rfl⟩ := List.cons.inj same
  exact fine error' violation

end Clean

/-- A reader succeeds only if nothing is wrong, and otherwise reports the leftmost violation. -/
def Blames {β : Type} (text : List Char) : Except Error β → Prop
  | .ok _ => ∀ before error, ¬ Violates text before error
  | .error error => ∃ before, Leftmost text before error

theorem Blames.map {β γ : Type} {text : List Char} {x : Except Error β} (h : Blames text x)
    (f : β → γ) : Blames text (f <$> x) := by
  cases x <;> exact h

theorem Blames.bind {β γ : Type} {text : List Char} {x : Except Error β} (h : Blames text x)
    (f : β → γ) : Blames text (do let b ← x; return f b) := by
  cases x <;> exact h

section Readers

variable {text before rest : List Char} {position : Nat} {c : Char}

/-- The reader's place, apart from the middle of an arrow. -/
structure Reading (text before rest : List Char) (position : Nat) : Prop
    extends Clean text before rest where
  settled : before.getLast? ≠ some '-'
  place : offset before = position

theorem Reading.step (reading : Reading text before (c :: rest) position) (dash : c ≠ '-')
    (fine : ∀ error, ¬ Violation before c rest error) :
    Reading text (before ++ [c]) rest (position + c.utf8Size) :=
  ⟨reading.toClean.step fine, by simpa using dash, reading.place ▸ offset_concat before c⟩

theorem Reading.start (text : List Char) : Reading text [] text 0 :=
  ⟨⟨rfl, fun _ _ _ => Nat.zero_le _⟩, by simp, rfl⟩

end Readers

section Starts

variable {text before : List Char} {error : Error}

end Starts

end Einsum.Equation
