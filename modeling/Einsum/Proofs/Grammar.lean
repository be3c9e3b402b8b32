import Einsum.Equation.Parser

/-! The texts that are read as equations.
The reader goes over a text once, from the left. Here the texts that it accepts, and the
equations that they stand for, are told without it: an arrow cuts a text in two, the commas
before the arrow cut the operands apart, and blanks are left out at the end. -/

namespace Einsum

/-- The letters of ASCII. -/
def IsLetter (c : Char) : Prop := 'A' ≤ c ∧ c ≤ 'Z' ∨ 'a' ≤ c ∧ c ≤ 'z'

theorem isLabel_iff {c : Char} : isLabel c = true ↔ IsLetter c := by
  have upper : c.isUpper = true ↔ 'A' ≤ c ∧ c ≤ 'Z' := decide_eq_true_iff
  have lower : c.isLower = true ↔ 'a' ≤ c ∧ c ≤ 'z' :=
    Bool.and_eq_true_iff.trans (and_congr decide_eq_true_iff decide_eq_true_iff)
  exact Bool.or_eq_true_iff.trans (or_congr upper lower)

/-- What a group of labels is written with. -/
def IsPlain (c : Char) : Prop := IsLetter c ∨ isBlank c = true

instance (c : Char) : Decidable (IsLetter c) := inferInstanceAs (Decidable (_ ∨ _))

instance (c : Char) : Decidable (IsPlain c) := inferInstanceAs (Decidable (_ ∨ _))

theorem isPlain_of_isLabel {c : Char} (h : isLabel c = true) : IsPlain c := .inl (isLabel_iff.1 h)

theorem isPlain_of_isBlank {c : Char} (h : isBlank c = true) : IsPlain c := .inr h

theorem not_isPlain {c : Char} (mark : ¬ isBlank c = true) (odd : ¬ isLabel c = true) : ¬ IsPlain c := by
  rintro (letter | blank)
  · exact odd (isLabel_iff.2 letter)
  · exact mark blank

theorem IsPlain.ne {c d : Char} (plain : IsPlain c) (odd : ¬ IsPlain d) : c ≠ d :=
  fun same => odd (same ▸ plain)

def withoutBlanks (text : List Char) : Labels := text.filter fun c => !isBlank c

theorem withoutBlanks_cons_blank {c : Char} (blank : isBlank c = true) (text : List Char) :
    withoutBlanks (c :: text) = withoutBlanks text := by
  simp [withoutBlanks, blank]

theorem withoutBlanks_cons {c : Char} (mark : isBlank c = false) (text : List Char) :
    withoutBlanks (c :: text) = c :: withoutBlanks text := by
  simp [withoutBlanks, mark]

namespace Equation

/-- What stands before the arrow of a text and, if there is an arrow, after it. -/
structure Written where
  inputs : List Char
  output : Option (List Char)

namespace Written

def chars (written : Written) : List Char :=
  match written.output with
  | none => written.inputs
  | some output => written.inputs ++ '-' :: '>' :: output

/-- Commas only stand before the arrow. -/
structure WellFormed (written : Written) : Prop where
  inputs : ∀ c ∈ written.inputs, IsPlain c ∨ c = ','
  output : ∀ output ∈ written.output, ∀ c ∈ output, IsPlain c

def groups (written : Written) : List (List Char) := written.inputs.splitOn ','

/-- The equation that is meant. -/
def equation (written : Written) : Equation :=
  ⟨written.groups.map withoutBlanks, written.output.map withoutBlanks⟩

def cons (c : Char) (written : Written) : Written := { written with inputs := c :: written.inputs }

/-- A text from its end: up to the arrow one character after the other. -/
@[elab_as_elim]
theorem induction_cons {motive : Written → Prop} (implicit : motive ⟨[], none⟩)
    (explicit : ∀ output, motive ⟨[], some output⟩)
    (cons : ∀ c written, motive written → motive (Written.cons c written)) (written : Written) :
    motive written := by
  obtain ⟨inputs, output⟩ := written
  induction inputs with
  | nil =>
    cases output with
    | none => exact implicit
    | some output => exact explicit output
  | cons c inputs ih => exact cons c ⟨inputs, output⟩ ih

theorem chars_cons (c : Char) (written : Written) :
    (written.cons c).chars = c :: written.chars := by
  cases written with
  | mk inputs output => cases output <;> rfl

theorem wellFormed_cons {c : Char} {written : Written} :
    (written.cons c).WellFormed ↔
      (IsPlain c ∨ c = ',') ∧ written.WellFormed := by
  constructor
  · intro h
    obtain ⟨first, rest⟩ := List.forall_mem_cons.1 h.inputs
    exact ⟨first, rest, h.output⟩
  · rintro ⟨first, h⟩
    exact ⟨List.forall_mem_cons.2 ⟨first, h.inputs⟩, h.output⟩

/-- Before the arrow a text may grow at its front. -/
theorem exists_cons {c : Char} {text : List Char} (first : IsPlain c ∨ c = ',')
    (h : ∃ written : Written, written.chars = text ∧ written.WellFormed) :
    ∃ written : Written, written.chars = c :: text ∧ written.WellFormed := by
  obtain ⟨written, rfl, wellFormed⟩ := h
  exact ⟨written.cons c, written.chars_cons c, wellFormed_cons.2 ⟨first, wellFormed⟩⟩

theorem groups_comma (written : Written) : (written.cons ',').groups = [] :: written.groups := by
  simp [groups, cons, List.splitOn_eq_splitOnP, List.splitOnP_cons_eq_if_modifyHead]

theorem groups_cons {c : Char} (h : c ≠ ',') (written : Written) :
    (written.cons c).groups = written.groups.modifyHead (c :: ·) := by
  simp [groups, cons, List.splitOn_eq_splitOnP, List.splitOnP_cons_eq_if_modifyHead, h]

end Written

theorem map_eq_ok_iff {β γ : Type} {f : β → γ} {x : Except Error β} {r : γ} :
    f <$> x = .ok r ↔ ∃ b, x = .ok b ∧ f b = r := by
  cases x <;> simp [Functor.map, Except.map]

/-- The output is read from plain characters, without the blanks. -/
theorem readOutput_eq_ok_iff {position : Nat} {text : List Char} {labels : Labels} :
    readOutput position text = .ok labels ↔
      (∀ c ∈ text, IsPlain c) ∧ withoutBlanks text = labels := by
  have dash : ¬ IsPlain '-' := by decide
  have tip : ¬ IsPlain '>' := by decide
  fun_induction readOutput position text generalizing labels with
  | case1 => simp [withoutBlanks]
  | case2 | case3 => simp [dash]
  | case4 => simp [tip]
  | case5 position c rest _ _ _ blank ih =>
    simp [ih, withoutBlanks_cons_blank blank, isPlain_of_isBlank blank]
  | case6 position c rest _ _ _ mark label ih =>
    simp [map_eq_ok_iff, ih, withoutBlanks_cons (Bool.eq_false_iff.2 mark),
      isPlain_of_isLabel label, and_assoc]
  | case7 position c rest _ _ _ mark odd => simp [not_isPlain mark odd]

theorem readGroups_sound {position : Nat} {text : List Char} {groups : Groups}
    (h : readGroups position text = .ok groups) :
    ∃ written : Written, written.chars = text ∧ written.WellFormed := by
  fun_induction readGroups position text generalizing groups with
  | case1 => exact ⟨⟨[], none⟩, rfl, by simp, by simp⟩
  | case2 position rest =>
    obtain ⟨output, read, -⟩ := bind_eq_ok_iff.1 h
    exact ⟨⟨[], some rest⟩, rfl, by simp, by simpa using (readOutput_eq_ok_iff.1 read).1⟩
  | case3 | case4 | case8 => cases h
  | case5 position rest ih =>
    obtain ⟨groups, read, -⟩ := bind_eq_ok_iff.1 h
    exact Written.exists_cons (.inr rfl) (ih read)
  | case6 position c rest _ _ _ _ blank ih =>
    exact Written.exists_cons (.inl (isPlain_of_isBlank blank)) (ih h)
  | case7 position c rest _ _ _ _ _ label ih =>
    obtain ⟨groups, read, -⟩ := bind_eq_ok_iff.1 h
    exact Written.exists_cons (.inl (isPlain_of_isLabel label)) (ih read)

theorem readGroups_comma (position : Nat) (rest : List Char) :
    readGroups position (',' :: rest) = do
      let groups ← readGroups (position + 1) rest
      return ⟨[], groups.first :: groups.others, groups.output⟩ := by
  rw [readGroups]

theorem readGroups_plain {c : Char} (plain : IsPlain c) (position : Nat) (rest : List Char) :
    readGroups position (c :: rest) =
      if isBlank c then readGroups (position + c.utf8Size) rest
      else do
        let groups ← readGroups (position + c.utf8Size) rest
        return { groups with first := c :: groups.first } := by
  have dash : c ≠ '-' := plain.ne (by decide)
  have tip : c ≠ '>' := plain.ne (by decide)
  have comma : c ≠ ',' := plain.ne (by decide)
  rw [readGroups.eq_6 _ _ _ (fun _ h => absurd h dash) dash tip comma]
  by_cases blank : isBlank c = true
  · rw [if_pos blank, if_pos blank]
  · have label : isLabel c = true := isLabel_iff.2 (plain.resolve_right blank)
    rw [if_neg blank, if_neg blank, if_pos label]

/-- The groups of labels that stand for an equation. -/
def Groups.equation (groups : Groups) : Equation := ⟨groups.first :: groups.others, groups.output⟩

theorem Groups.equation_injective {groups groups' : Groups} (h : groups.equation = groups'.equation) :
    groups = groups' := by
  cases groups
  cases groups'
  simp_all [Groups.equation]

theorem Written.equation_comma (written : Written) :
    (written.cons ',').equation = ⟨[] :: written.equation.inputs, written.equation.output⟩ := by
  rw [equation, groups_comma]
  rfl

theorem Written.equation_cons {c : Char} (h : c ≠ ',') (written : Written) :
    (written.cons c).equation =
      ⟨written.equation.inputs.modifyHead (withoutBlanks [c] ++ ·), written.equation.output⟩ := by
  have pieces (text : List Char) : withoutBlanks (c :: text) = withoutBlanks [c] ++ withoutBlanks text :=
    List.filter_append [c] text
  rw [equation, groups_cons h, equation]
  cases written.groups with
  | nil => rfl
  | cons group groups => simp [pieces group, cons]

theorem readGroups_complete {written : Written} (wellFormed : written.WellFormed) (position : Nat) :
    ∃ groups, readGroups position written.chars = .ok groups ∧ groups.equation = written.equation := by
  induction written using Written.induction_cons generalizing position with
  | implicit => exact ⟨_, rfl, rfl⟩
  | explicit output =>
    have read : readOutput (position + 2) output = .ok (withoutBlanks output) :=
      readOutput_eq_ok_iff.2 ⟨wellFormed.output output rfl, rfl⟩
    refine ⟨⟨[], [], some (withoutBlanks output)⟩, ?_, rfl⟩
    change readGroups position ('-' :: '>' :: output) = _
    rw [readGroups, read]
    rfl
  | cons c written ih =>
    rw [Written.chars_cons]
    obtain ⟨plain | rfl, rest⟩ := Written.wellFormed_cons.1 wellFormed
    · have comma : c ≠ ',' := plain.ne (by decide)
      obtain ⟨groups, read, equation⟩ := ih rest (position + c.utf8Size)
      rw [readGroups_plain plain, read, Written.equation_cons comma, ← equation]
      by_cases blank : isBlank c = true
      · rw [if_pos blank, withoutBlanks_cons_blank blank]
        exact ⟨groups, rfl, rfl⟩
      · rw [if_neg blank, withoutBlanks_cons (Bool.eq_false_iff.2 blank)]
        exact ⟨_, rfl, rfl⟩
    · obtain ⟨groups, read, equation⟩ := ih rest (position + 1)
      rw [readGroups_comma, read, Written.equation_comma, ← equation]
      exact ⟨_, rfl, rfl⟩

theorem readGroups_eq_ok_iff {position : Nat} {text : List Char} {groups : Groups} :
    readGroups position text = .ok groups ↔
      ∃ written : Written, written.chars = text ∧ written.WellFormed ∧
        written.equation = groups.equation := by
  constructor
  · intro h
    obtain ⟨written, rfl, wellFormed⟩ := readGroups_sound h
    obtain ⟨groups', read, equation⟩ := readGroups_complete wellFormed position
    obtain rfl := Except.ok.inj (h.symm.trans read)
    exact ⟨written, rfl, wellFormed, equation.symm⟩
  · rintro ⟨written, rfl, wellFormed, equation⟩
    obtain ⟨groups', read, equation'⟩ := readGroups_complete wellFormed position
    rw [read, Groups.equation_injective (equation'.trans equation)]

theorem ofChars_eq_ok_iff {text : List Char} {operands : Nat} {equation : Equation} :
    ofChars text operands = .ok equation ↔
      operands ≠ 0 ∧ ¬ text.all isBlank = true ∧ ∃ groups, readGroups 0 text = .ok groups ∧
        equation.inputs.length = operands ∧ groups.equation = equation := by
  rw [ofChars]
  by_cases none : operands = 0
  · simp [none]
  by_cases empty : text.all isBlank = true
  · simp [none, empty]
  rw [if_neg none, if_neg empty, bind_eq_ok_iff]
  rw [and_iff_right none, and_iff_right empty]
  refine exists_congr fun groups => and_congr_right fun _ => ?_
  change (if groups.equation.inputs.length = operands then Except.ok groups.equation
    else Except.error (Error.operandCount groups.equation.inputs.length operands)) = .ok equation ↔ _
  split
  · rename_i length
    constructor
    · intro h
      exact Except.ok.inj h ▸ ⟨length, rfl⟩
    · rintro ⟨-, rfl⟩
      rfl
  · rename_i length
    constructor
    · intro h
      cases h
    · rintro ⟨same, rfl⟩
      exact absurd same length

/-- A text is read as an equation of some operands just if there are operands, the text is
not blank, and letters, blanks and commas make it up, with at most one arrow and no comma
after it, in as many groups as there are operands. The equation has the groups, and what
stands after the arrow, without their blanks. -/
theorem ofText_eq_ok_iff {text : String} {operands : Nat} {equation : Equation} :
    ofText text operands = .ok equation ↔
      1 ≤ operands ∧ (∃ c ∈ text.toList, isBlank c = false) ∧
        ∃ written : Written, written.chars = text.toList ∧ written.WellFormed ∧
          written.groups.length = operands ∧ equation = written.equation := by
  have mark : (¬ text.toList.all isBlank = true) ↔ ∃ c ∈ text.toList, isBlank c = false := by simp
  have length (written : Written) : written.equation.inputs.length = written.groups.length :=
    List.length_map _
  rw [ofText, ofChars_eq_ok_iff, mark, Nat.one_le_iff_ne_zero]
  refine and_congr_right fun _ => and_congr_right fun _ => ?_
  constructor
  · rintro ⟨groups, read, count, rfl⟩
    obtain ⟨written, chars, wellFormed, equation⟩ := readGroups_eq_ok_iff.1 read
    exact ⟨written, chars, wellFormed, by rw [← length, equation, count], equation.symm⟩
  · rintro ⟨written, chars, wellFormed, count, rfl⟩
    obtain ⟨groups, read, equation⟩ := readGroups_complete wellFormed 0
    exact ⟨groups, chars ▸ read, by rw [length, count], equation⟩

/-- Blanks around the arrow and an empty group. -/
example : ofText " a b,\t-> b" 2 = .ok ⟨[['a', 'b'], []], some ['b']⟩ := by cbv

end Equation

end Einsum
