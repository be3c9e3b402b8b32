import Einsum.Invocation
import Einsum.Proofs.ErrorKinds

/-! What a loosely typed call answers.
A call may have several things wrong with it at once. No arguments come first, then the first
option that is refused, then a first argument that is no text, then the first other argument
that is neither a tensor nor a number. A call with none of these is an evaluation, and only the
latter can find fault with values alone. -/

namespace Einsum

variable {τ α : Type}

namespace Keyword

/-- The strategy that an option asks for. -/
def strategy? (option : Keyword) : Option Strategy :=
  if option.name = "optimize" then
    match option.value with
    | .bool false => some .leftToRight
    | .bool true => some .greedy
    | .text name => Strategy.ofName? name
    | .int _ => none
  else none

/-- Whether an option asks for contractions as a tree. -/
def parallel? (option : Keyword) : Option Bool :=
  if option.name = "parallel" then
    match option.value with
    | .bool parallel => some parallel
    | _ => none
  else none

/-- Options with an unknown name or an unusable value, and what is said about them. -/
inductive Refused : Keyword → Error → Prop
  | unknown {name : String} {value : Value} (notOptimize : name ≠ "optimize")
      (notParallel : name ≠ "parallel") : Refused ⟨name, value⟩ (.unknownKeyword name)
  | strategyName {name : String} (unknown : Strategy.ofName? name = none) :
    Refused ⟨"optimize", .text name⟩ (.keyword "optimize" (.unknownStrategy (.text name)))
  | strategyNumber {i : Int} :
    Refused ⟨"optimize", .int i⟩ (.keyword "optimize" (.notStrategy (.int i)))
  | parallel {value : Value} (notBool : ∀ b, value ≠ .bool b) :
    Refused ⟨"parallel", value⟩ (.keyword "parallel" (.notBool value))

def Accepted (option : Keyword) : Prop := ∀ e, ¬option.Refused e

end Keyword

namespace Settings

variable {option : Keyword} {options before after : List Keyword} {settings : Settings} {e : Error}

/-- The default with the last strategy and the last word on trees that the options ask for. -/
def configured (options : List Keyword) : Settings :=
  { default with
    strategy := (options.filterMap Keyword.strategy?).getLast?.getD default.strategy
    parallel := (options.filterMap Keyword.parallel?).getLast?.getD default.parallel }

theorem apply_eq_error (refused : option.Refused e) (settings : Settings) :
    settings.apply option = .error e := by
  cases refused with
  | unknown notOptimize notParallel => rw [apply, if_neg notOptimize, if_neg notParallel]
  | strategyName unknown => simp [apply, unknown]
  | strategyNumber => rfl
  | @parallel value notBool =>
    cases value with
    | bool b => exact absurd rfl (notBool b)
    | text | int => rfl

theorem apply_eq_ok (accepted : option.Accepted) (settings : Settings) :
    settings.apply option = .ok { settings with
      strategy := option.strategy?.getD settings.strategy
      parallel := option.parallel?.getD settings.parallel } := by
  obtain ⟨name, value⟩ := option
  by_cases optimize : name = "optimize"
  · subst optimize
    match value with
    | .bool false | .bool true => rfl
    | .int i => exact absurd .strategyNumber (accepted _)
    | .text strategy =>
      cases known : Strategy.ofName? strategy with
      | none => exact absurd (.strategyName known) (accepted _)
      | some found => simp [apply, Keyword.strategy?, Keyword.parallel?, known]
  · by_cases parallel : name = "parallel"
    · subst parallel
      cases value with
      | bool b => rfl
      | text | int => exact absurd (.parallel nofun) (accepted _)
    · exact absurd (.unknown optimize parallel) (accepted _)

theorem getLast?_filterMap_cons {β : Type} (f : Keyword → Option β) (option : Keyword)
    (options : List Keyword) (b : β) :
    ((option :: options).filterMap f).getLast?.getD b =
      (options.filterMap f).getLast?.getD ((f option).getD b) := by
  cases h : f option <;> simp [h, List.getLast?_cons]

theorem foldlM_apply_eq_ok (accepted : ∀ option ∈ options, option.Accepted) (settings : Settings) :
    options.foldlM apply settings = .ok { settings with
      strategy := (options.filterMap Keyword.strategy?).getLast?.getD settings.strategy
      parallel := (options.filterMap Keyword.parallel?).getLast?.getD settings.parallel } := by
  induction options generalizing settings with
  | nil => rfl
  | cons option options ih =>
    obtain ⟨first, rest⟩ := List.forall_mem_cons.1 accepted
    rw [List.foldlM_cons, apply_eq_ok first, getLast?_filterMap_cons, getLast?_filterMap_cons]
    exact ih rest _

theorem ofKeywords_eq_ok (accepted : ∀ option ∈ options, option.Accepted) :
    ofKeywords options = .ok (configured options) := foldlM_apply_eq_ok accepted default

/-- The first option that is refused decides. -/
theorem ofKeywords_eq_error (accepted : ∀ option ∈ before, option.Accepted)
    (refused : option.Refused e) : ofKeywords (before ++ option :: after) = .error e := by
  rw [ofKeywords, List.foldlM_append, foldlM_apply_eq_ok accepted]
  simp only [bind, Except.bind, List.foldlM_cons, apply_eq_error refused]

end Settings

namespace Argument

/-- The tensor that an argument stands for; a number stands for a tensor without axes. -/
def operand? (backend : Backend τ α) : Argument τ α → Option τ
  | .tensor t => some t
  | .scalar value => some (backend.scalar value)
  | .subscripts _ | .other _ => none

end Argument

section Operands

variable {backend : Backend τ α} {argument : Argument τ α}
  {arguments before after : List (Argument τ α)}

theorem operandsOf_cons {t : τ} (h : argument.operand? backend = some t) (position : Nat) :
    operandsOf backend position (argument :: arguments) =
      (t :: ·) <$> operandsOf backend (position + 1) arguments := by
  cases argument with
  | tensor | scalar =>
    cases h
    rfl
  | subscripts | other => cases h

theorem operandsOf_eq_ok {operands : List τ}
    (h : arguments.mapM (·.operand? backend) = some operands) (position : Nat) :
    operandsOf backend position arguments = .ok operands := by
  induction arguments generalizing operands position with
  | nil =>
    cases h
    rfl
  | cons argument arguments ih =>
    rw [List.mapM_cons] at h
    obtain ⟨t, first, h⟩ := Option.bind_eq_some_iff.1 h
    obtain ⟨others, rest, h⟩ := Option.bind_eq_some_iff.1 h
    obtain rfl := Option.some.inj h
    rw [operandsOf_cons first, ih rest]
    rfl

theorem operandsOf_eq_error (tensors : ∀ a ∈ before, (a.operand? backend).isSome)
    (h : argument.operand? backend = none) (position : Nat) :
    operandsOf backend position (before ++ argument :: after) =
      .error (.operandNotTensor (position + before.length) argument.kindName) := by
  induction before generalizing position with
  | nil =>
    cases argument with
    | tensor | scalar => cases h
    | subscripts | other => rfl
  | cons first before ih =>
    obtain ⟨head, tensors⟩ := List.forall_mem_cons.1 tensors
    obtain ⟨t, ht⟩ := Option.isSome_iff_exists.1 head
    rw [List.cons_append, operandsOf_cons ht, ih tensors, List.length_cons, Nat.add_right_comm,
      Nat.add_assoc]
    rfl

end Operands

/-- The answers to calls, by what is wrong first. -/
inductive Answers (backend : Backend τ α) :
    List (Argument τ α) → List Keyword → Except Error τ → Prop
  | nothing {options : List Keyword} : Answers backend [] options (.error .noOperands)
  | option {first : Argument τ α} {rest : List (Argument τ α)} {before after : List Keyword}
      {option : Keyword} {e : Error} (accepted : ∀ other ∈ before, other.Accepted)
      (refused : option.Refused e) :
    Answers backend (first :: rest) (before ++ option :: after) (.error e)
  | subscripts {first : Argument τ α} {rest : List (Argument τ α)} {options : List Keyword}
      (accepted : ∀ option ∈ options, option.Accepted) (notText : ∀ text, first ≠ .subscripts text) :
    Answers backend (first :: rest) options (.error (.subscriptsNotText first.kindName))
  | operand {text : String} {before after : List (Argument τ α)} {argument : Argument τ α}
      {options : List Keyword} (accepted : ∀ option ∈ options, option.Accepted)
      (tensors : ∀ other ∈ before, (other.operand? backend).isSome)
      (notTensor : argument.operand? backend = none) :
    Answers backend (.subscripts text :: (before ++ argument :: after)) options
      (.error (.operandNotTensor before.length argument.kindName))
  | evaluated {text : String} {rest : List (Argument τ α)} {operands : List τ}
      {options : List Keyword} (accepted : ∀ option ∈ options, option.Accepted)
      (tensors : rest.mapM (·.operand? backend) = some operands) :
    Answers backend (.subscripts text :: rest) options
      (evaluate backend text operands (.configured options))

/-- Either all elements of a list have a property or there is a first one that has not. -/
theorem forall_or_exists_first {β : Type} (p : β → Prop) (xs : List β) :
    (∀ x ∈ xs, p x) ∨ ∃ before x after, xs = before ++ x :: after ∧ (∀ y ∈ before, p y) ∧ ¬p x := by
  induction xs with
  | nil => exact .inl nofun
  | cons x xs ih =>
    by_cases first : p x
    · obtain all | ⟨before, y, after, rfl, earlier, fails⟩ := ih
      · exact .inl (List.forall_mem_cons.2 ⟨first, all⟩)
      · exact .inr ⟨x :: before, y, after, rfl, List.forall_mem_cons.2 ⟨first, earlier⟩, fails⟩
    · exact .inr ⟨[], x, xs, rfl, nofun, first⟩

namespace Answers

variable {backend : Backend τ α} {arguments : List (Argument τ α)} {options : List Keyword}
  {result : Except Error τ}

theorem invoke_eq (answers : Answers backend arguments options result) :
    invoke backend arguments options = result := by
  cases answers with
  | nothing => rfl
  | option accepted refused =>
    rw [invoke, Settings.ofKeywords_eq_error accepted refused]
    rfl
  | @subscripts first _ _ accepted notText =>
    rw [invoke, Settings.ofKeywords_eq_ok accepted]
    cases first with
    | subscripts text => exact absurd rfl (notText text)
    | tensor | scalar | other => rfl
  | operand accepted tensors notTensor =>
    rw [invoke, Settings.ofKeywords_eq_ok accepted]
    simp only [bind, Except.bind, operandsOf_eq_error tensors notTensor, Nat.zero_add]
  | evaluated accepted tensors =>
    rw [invoke, Settings.ofKeywords_eq_ok accepted]
    simp only [bind, Except.bind, operandsOf_eq_ok tensors]

/-- Every call has an answer. -/
theorem exists_answer (backend : Backend τ α) (arguments : List (Argument τ α))
    (options : List Keyword) : ∃ result, Answers backend arguments options result := by
  cases arguments with
  | nil => exact ⟨_, .nothing⟩
  | cons first rest =>
    obtain accepted | ⟨before, option, after, rfl, accepted, refused⟩ :=
      forall_or_exists_first Keyword.Accepted options
    · cases first with
      | tensor | scalar | other => exact ⟨_, .subscripts accepted nofun⟩
      | subscripts text =>
        obtain tensors | ⟨before, argument, after, rfl, tensors, notTensor⟩ :=
          forall_or_exists_first (fun argument => (argument.operand? backend).isSome) rest
        · obtain ⟨operands, tensors⟩ := exists_mapM_eq_some tensors
          exact ⟨_, .evaluated accepted tensors⟩
        · exact ⟨_, .operand accepted tensors (by simpa using notTensor)⟩
    · obtain ⟨e, refused⟩ := not_forall_not.1 refused
      exact ⟨_, .option accepted refused⟩

end Answers

theorem invoke_eq_iff {backend : Backend τ α} {arguments : List (Argument τ α)}
    {options : List Keyword} {result : Except Error τ} :
    invoke backend arguments options = result ↔ Answers backend arguments options result := by
  refine ⟨?_, Answers.invoke_eq⟩
  rintro rfl
  obtain ⟨result, answers⟩ := Answers.exists_answer backend arguments options
  rwa [answers.invoke_eq]

/-- Calls with something of the wrong type that is met before anything else that is wrong. -/
inductive Mistyped (backend : Backend τ α) : List (Argument τ α) → List Keyword → Prop
  | keyword {first : Argument τ α} {rest : List (Argument τ α)} {before after : List Keyword}
      {name : String} {value : Keyword.Value} (accepted : ∀ other ∈ before, other.Accepted)
      (notOptimize : name ≠ "optimize") (notParallel : name ≠ "parallel") :
    Mistyped backend (first :: rest) (before ++ ⟨name, value⟩ :: after)
  | subscripts {first : Argument τ α} {rest : List (Argument τ α)} {options : List Keyword}
      (accepted : ∀ option ∈ options, option.Accepted) (notText : ∀ text, first ≠ .subscripts text) :
    Mistyped backend (first :: rest) options
  | operand {text : String} {rest : List (Argument τ α)} {argument : Argument τ α}
      {options : List Keyword} (accepted : ∀ option ∈ options, option.Accepted)
      (mem : argument ∈ rest) (notTensor : argument.operand? backend = none) :
    Mistyped backend (.subscripts text :: rest) options

section Kinds

variable {backend : Backend τ α} {arguments : List (Argument τ α)} {options : List Keyword}
  {result : Except Error τ} {e : Error}

theorem Answers.mistyped (answers : Answers backend arguments options result)
    (values : ∀ text operands settings, FailsInValue (evaluate backend text operands settings))
    (failed : result = .error e) (type : e.kind = .type) : Mistyped backend arguments options := by
  cases answers with
  | nothing =>
    cases failed
    cases type
  | option accepted refused =>
    cases failed
    cases refused with
    | unknown notOptimize notParallel => exact .keyword accepted notOptimize notParallel
    | strategyName | strategyNumber | parallel => cases type
  | subscripts accepted notText => exact .subscripts accepted notText
  | operand accepted _ notTensor => exact .operand accepted (by simp) notTensor
  | evaluated => cases type.symm.trans (values _ _ _ e failed)

theorem Mistyped.exists_answer (mistyped : Mistyped backend arguments options) :
    ∃ e, Answers backend arguments options (.error e) ∧ e.kind = .type := by
  cases mistyped with
  | keyword accepted notOptimize notParallel =>
    exact ⟨_, .option accepted (.unknown notOptimize notParallel), rfl⟩
  | subscripts accepted notText => exact ⟨_, .subscripts accepted notText, rfl⟩
  | @operand text rest argument _ accepted mem notTensor =>
    obtain tensors | ⟨before, first, after, rfl, tensors, missing⟩ :=
      forall_or_exists_first (fun argument => (argument.operand? backend).isSome) rest
    · have tensor := tensors argument mem
      rw [notTensor] at tensor
      cases tensor
    · exact ⟨_, .operand accepted tensors (by simpa using missing), rfl⟩

/-- Where evaluations complain about values only, the type errors are those of the call. -/
theorem exists_type_error_iff
    (values : ∀ text operands settings, FailsInValue (evaluate backend text operands settings)) :
    (∃ e, invoke backend arguments options = .error e ∧ e.kind = .type) ↔
      Mistyped backend arguments options := by
  constructor
  · rintro ⟨e, failed, type⟩
    exact (invoke_eq_iff.1 failed).mistyped values rfl type
  · intro mistyped
    obtain ⟨e, answers, type⟩ := mistyped.exists_answer
    exact ⟨e, answers.invoke_eq, type⟩

theorem Tensor.evaluate_fails [Zero α] [Add α] [Mul α] (text : String) (operands : List (Tensor α))
    (settings : Settings) : FailsInValue (evaluate (Tensor.backend α) text operands settings) :=
  (Einsum.evaluate_fails (Tensor.backend α) text operands settings).imp fun _ blame =>
    blame.elim id kind_of_raises

end Kinds

/-- A call answers with the first thing that is wrong with it, or else it is an evaluation with
the settings that the options ask for. What then goes wrong is about values, unless a primitive
raises something else. The primitives on dense tensors do not, and so a call with dense tensors
and numbers ends in a type error just if it is mistyped before anything else is wrong. -/
theorem invoke_answers_first_problem :
    (∀ {τ α : Type} (backend : Backend τ α),
      (∀ arguments options result, invoke backend arguments options = result ↔
        Answers backend arguments options result) ∧
      ∀ text operands settings e, evaluate backend text operands settings = .error e →
        e.kind = .value ∨ backend.Raises e) ∧
    ∀ {α : Type} [Zero α] [Add α] [Mul α],
      (∀ value : α, ((Tensor.backend α).scalar value).rank = 0) ∧
      (∀ text operands settings e, evaluate (Tensor.backend α) text operands settings = .error e →
        e.kind = .value) ∧
      ∀ arguments options,
        (∃ e, invoke (Tensor.backend α) arguments options = .error e ∧ e.kind = .type) ↔
          Mistyped (Tensor.backend α) arguments options :=
  ⟨fun backend => ⟨fun _ _ _ => invoke_eq_iff, evaluate_fails backend⟩,
    fun _ => rfl, Tensor.evaluate_fails, fun _ _ => exists_type_error_iff Tensor.evaluate_fails⟩

/-- Calls with several things wrong. -/
theorem invoke_answers_first_problem_several :
    let backend := Tensor.backend Int
    let missing : Argument (Tensor Int) Int := .other "NoneType"
    let fastest : Keyword := ⟨"optimize", .text "fastest"⟩
    let unknown : Keyword := ⟨"bad_arg", .int 0⟩
    invoke backend [missing, missing] [⟨"parallel", .bool true⟩, fastest, unknown] =
      .error (.keyword "optimize" (.unknownStrategy (.text "fastest"))) ∧
    invoke backend [.subscripts "i,i", .scalar 1, .subscripts "i", missing] [] =
      .error (.operandNotTensor 1 "str") ∧
    (∃ e, invoke backend [missing, missing] [unknown, fastest] = .error e ∧ e.kind = .type) ∧
    ¬∃ e, invoke backend [] [unknown] = .error e ∧ e.kind = .type := by
  intro backend missing fastest unknown
  obtain ⟨answers, -⟩ := invoke_answers_first_problem.1 backend
  obtain ⟨-, -, types⟩ := invoke_answers_first_problem.2 (α := Int)
  have usable : ∀ option ∈ [(⟨"parallel", .bool true⟩ : Keyword)], option.Accepted := by
    refine List.forall_mem_singleton.2 fun e refused => ?_
    cases Settings.apply_eq_error refused .default
  have strategy : Answers backend [missing, missing] ([⟨"parallel", .bool true⟩] ++ fastest :: [unknown])
      (.error (.keyword "optimize" (.unknownStrategy (.text "fastest")))) :=
    .option usable (.strategyName (by decide))
  have operand : Answers backend (.subscripts "i,i" :: ([.scalar 1] ++ .subscripts "i" :: [missing])) []
      (.error (.operandNotTensor 1 "str")) := .operand nofun (by simp [Argument.operand?]) rfl
  have keyword : Mistyped backend [missing, missing] ([] ++ unknown :: [fastest]) :=
    .keyword nofun (by decide) (by decide)
  refine ⟨(answers _ _ _).2 strategy, (answers _ _ _).2 operand, (types _ _).2 keyword, fun type => ?_⟩
  cases (types _ _).1 type

end Einsum
