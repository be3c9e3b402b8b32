import Einsum.Proofs.Grammar

/-! Equations printed and read back.
An equation is printed as a text without blanks, in which the commas and the arrow stand where
the groups end. The reader is told by such cut texts already, so what is left to show is that
the text of an equation is cut where it was joined. One equation has the empty text, which is
refused as blank: a single operand without labels and no output. -/

namespace Einsum

theorem not_isBlank_of_isLetter {c : Char} (letter : IsLetter c) : isBlank c = false := by
  have range : 65 ≤ c.toNat ∧ c.toNat ≤ 90 ∨ 97 ≤ c.toNat ∧ c.toNat ≤ 122 := letter
  have runs : ∀ run ∈ blankRuns, run.2 < 65 ∨ 122 < run.1 := by decide
  rw [isBlank, List.any_eq_false]
  intro run member
  have apart := runs run member
  simp only [Bool.and_eq_true, decide_eq_true_eq]
  omega

theorem withoutBlanks_of_letters {labels : Labels} (letters : ∀ c ∈ labels, IsLetter c) :
    withoutBlanks labels = labels := by
  refine List.filter_eq_self.2 fun c member => ?_
  rw [not_isBlank_of_isLetter (letters c member)]
  rfl

theorem comma_notMem_of_letters {labels : Labels} (letters : ∀ c ∈ labels, IsLetter c) :
    ',' ∉ labels := fun member => absurd (letters ',' member) (by decide)

theorem mem_intercalate {β : Type} {b separator : β} {lists : List (List β)}
    (h : b ∈ [separator].intercalate lists) : b = separator ∨ ∃ list ∈ lists, b ∈ list := by
  induction lists with
  | nil => cases h
  | cons list lists ih =>
    cases lists with
    | nil => exact .inr ⟨list, by simp, by simpa using h⟩
    | cons next lists =>
      rw [List.intercalate_cons_cons, List.mem_append, List.mem_append, List.mem_singleton] at h
      obtain (here | separator) | later := h
      · exact .inr ⟨list, by simp, here⟩
      · exact .inl separator
      · exact (ih later).imp_right fun ⟨list, member, inside⟩ =>
          ⟨list, List.mem_cons_of_mem _ member, inside⟩

namespace Equation

structure Lettered (equation : Equation) : Prop where
  inputs : ∀ labels ∈ equation.inputs, ∀ c ∈ labels, IsLetter c
  output : ∀ labels ∈ equation.output, ∀ c ∈ labels, IsLetter c

/-- The printed text, cut at the arrow. -/
def written (equation : Equation) : Written :=
  ⟨[','].intercalate equation.inputs, equation.output⟩

section Printed

variable {equation : Equation}

theorem chars_written (equation : Equation) : equation.written.chars = equation.chars := by
  obtain ⟨inputs, output⟩ := equation
  cases output
  · exact (List.append_nil _).symm
  · rfl

theorem Lettered.wellFormed_written (lettered : equation.Lettered) :
    equation.written.WellFormed := by
  constructor
  · intro c member
    obtain comma | ⟨labels, group, inside⟩ := mem_intercalate member
    · exact .inr comma
    · exact .inl (.inl (lettered.inputs labels group c inside))
  · intro output given c inside
    exact .inl (lettered.output output given c inside)

theorem Lettered.equation_written (lettered : equation.Lettered) (present : equation.inputs ≠ []) :
    equation.written.equation = equation := by
  have groups : equation.written.groups = equation.inputs :=
    List.splitOn_intercalate ','
      (fun labels group => comma_notMem_of_letters (lettered.inputs labels group)) present
  have inputs : equation.inputs.map withoutBlanks = equation.inputs :=
    List.map_congr_left (fun labels group => withoutBlanks_of_letters (lettered.inputs labels group))
      |>.trans (List.map_id _)
  have output : equation.output.map withoutBlanks = equation.output := by
    cases given : equation.output with
    | none => rfl
    | some output => exact congrArg some (withoutBlanks_of_letters (lettered.output output given))
  rw [Written.equation, groups, inputs]
  exact congrArg (Equation.mk _) output

theorem Lettered.eq_of_blank (lettered : equation.Lettered) (present : equation.inputs ≠ [])
    (blank : ∀ c ∈ equation.chars, isBlank c = true) : equation = ⟨[[]], none⟩ := by
  obtain ⟨inputs, output⟩ := equation
  cases output with
  | some output => exact absurd (blank '-' (by simp [chars])) (by decide)
  | none =>
    match inputs with
    | [] => exact absurd rfl present
    | [[]] => rfl
    | [c :: labels] =>
      have letter := lettered.inputs (c :: labels) (by simp) c (by simp)
      have first := blank c (by simp [chars])
      rw [not_isBlank_of_isLetter letter] at first
      cases first
    | labels :: next :: others =>
      exact absurd (blank ',' (by simp [chars, List.intercalate_cons_cons])) (by decide)

theorem Lettered.ofText_text (lettered : equation.Lettered) (present : equation.inputs ≠ [])
    (shown : equation ≠ ⟨[[]], none⟩) :
    ofText equation.text equation.inputs.length = .ok equation := by
  obtain ⟨groups, read, meant⟩ := readGroups_complete lettered.wellFormed_written 0
  rw [chars_written] at read
  rw [lettered.equation_written present] at meant
  rw [ofText, text, String.toList_ofList]
  refine ofChars_eq_ok_iff.2 ⟨?_, fun blank => shown ?_, groups, read, rfl, meant⟩
  · simpa using present
  · exact lettered.eq_of_blank present (by simpa using blank)

end Printed

namespace Written

theorem equation_inputs_ne_nil (written : Written) : written.equation.inputs ≠ [] := by
  simp [equation, groups]

/-- A character other than a comma goes to the first group. -/
theorem exists_equation_cons {c : Char} (comma : c ≠ ',') (written : Written) :
    ∃ first others output, written.equation = ⟨first :: others, output⟩ ∧
      (written.cons c).equation = ⟨(withoutBlanks [c] ++ first) :: others, output⟩ := by
  obtain ⟨first, others, inputs⟩ := List.exists_cons_of_ne_nil written.equation_inputs_ne_nil
  refine ⟨first, others, written.equation.output, ?_, ?_⟩
  · rw [← inputs]
  · rw [equation_cons comma, inputs, List.modifyHead_cons]

theorem WellFormed.lettered {written : Written} (wellFormed : written.WellFormed) :
    written.equation.Lettered := by
  have letters {text : List Char} (plain : ∀ c ∈ text, IsPlain c) :
      ∀ c ∈ withoutBlanks text, IsLetter c := by
    intro c member
    obtain ⟨inside, mark⟩ := List.mem_filter.1 member
    exact (plain c inside).resolve_right (by simpa using mark)
  induction written using Written.induction_cons with
  | implicit => exact ⟨by simp [equation, groups, withoutBlanks], by simp [equation]⟩
  | explicit output =>
    refine ⟨by simp [equation, groups, withoutBlanks], ?_⟩
    rintro labels ⟨⟩
    exact letters (wellFormed.output output rfl)
  | cons c written ih =>
    obtain ⟨plain | rfl, rest⟩ := wellFormed_cons.1 wellFormed
    · have lettered := ih rest
      obtain ⟨first, others, output, meant, grown⟩ :=
        exists_equation_cons (plain.ne (by decide)) written
      rw [meant] at lettered
      rw [grown]
      obtain ⟨head, tail⟩ := List.forall_mem_cons.1 lettered.inputs
      have front := letters (List.forall_mem_singleton.2 plain)
      exact ⟨List.forall_mem_cons.2 ⟨List.forall_mem_append.2 ⟨front, head⟩, tail⟩, lettered.output⟩
    · rw [equation_comma]
      exact ⟨List.forall_mem_cons.2 ⟨by simp, (ih rest).inputs⟩, (ih rest).output⟩

/-- Only a blank text means the equation that is printed as the empty text. -/
theorem blank_of_equation {written : Written} (h : written.equation = ⟨[[]], none⟩) :
    ∀ c ∈ written.chars, isBlank c = true := by
  induction written using Written.induction_cons with
  | implicit => simp [chars]
  | explicit output => simp [equation] at h
  | cons c written ih =>
    by_cases comma : c = ','
    · subst comma
      rw [equation_comma] at h
      simp [equation_inputs_ne_nil] at h
    · obtain ⟨first, others, output, meant, grown⟩ := exists_equation_cons comma written
      rw [grown] at h
      simp only [Equation.mk.injEq, List.cons.injEq, List.append_eq_nil_iff] at h
      obtain ⟨⟨⟨front, rfl⟩, rfl⟩, rfl⟩ := h
      rw [chars_cons]
      exact List.forall_mem_cons.2 ⟨by simpa [withoutBlanks] using front, ih meant⟩

end Written

/-- Every equation of letters with an operand, but for the one whose text is empty, is read back
from its text, and with it the places of its labels. So a text and the text of what it is read as
are read as the same equation. -/
theorem ofText_inverts_text :
    (∀ equation : Equation, equation.inputs ≠ [] → equation.Lettered → equation ≠ ⟨[[]], none⟩ →
      (fun read => (read, read.places)) <$> ofText equation.text equation.inputs.length =
        .ok (equation, equation.places)) ∧
    ofText (⟨[[]], none⟩ : Equation).text 1 = .error .emptySubscripts ∧
    ∀ (text : String) (operands : Nat) (equation : Equation), ofText text operands = .ok equation →
      ofText equation.text operands = .ok equation := by
  refine ⟨fun equation present lettered shown => ?_, ?_, fun text operands equation known => ?_⟩
  · rw [lettered.ofText_text present shown]
    rfl
  · rw [ofText, text, String.toList_ofList]
    rfl
  · obtain ⟨-, mark, groups, read, rfl, rfl⟩ := ofChars_eq_ok_iff.1 known
    obtain ⟨written, chars, wellFormed, meant⟩ := readGroups_eq_ok_iff.1 read
    rw [← meant]
    refine wellFormed.lettered.ofText_text written.equation_inputs_ne_nil fun blank => mark ?_
    rw [← chars]
    simpa using Written.blank_of_equation blank

/-- An empty group, an empty output after the arrow, and blanks that are not printed. -/
theorem ofText_inverts_text_empty_groups :
    (⟨[['a', 'B'], [], ['B']], some []⟩ : Equation).text = "aB,,B->" ∧
    (fun read => (read, read.places)) <$> ofText "aB,,B->" 3 =
      .ok (⟨[['a', 'B'], [], ['B']], some []⟩,
        (⟨[['a', 'B'], [], ['B']], some []⟩ : Equation).places) ∧
    ofText " a B,,\tB ->" 3 = .ok ⟨[['a', 'B'], [], ['B']], some []⟩ ∧
    ofText (⟨[['a', 'B'], [], ['B']], some []⟩ : Equation).text 3 =
      .ok ⟨[['a', 'B'], [], ['B']], some []⟩ := by
  have text : (⟨[['a', 'B'], [], ['B']], some []⟩ : Equation).text = "aB,,B->" := by decide
  have lettered : (⟨[['a', 'B'], [], ['B']], some []⟩ : Equation).Lettered :=
    ⟨by simp [IsLetter], by simp⟩
  have spaced : ofText " a B,,\tB ->" 3 = .ok ⟨[['a', 'B'], [], ['B']], some []⟩ := by rfl
  have printed := ofText_inverts_text.1 _ (by decide) lettered (by decide)
  rw [text] at printed
  exact ⟨text, printed, spaced, ofText_inverts_text.2.2 _ _ _ spaced⟩

end Equation

end Einsum
