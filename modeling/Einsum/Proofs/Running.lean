import Einsum.Evaluate

/-! Both ways to run a plan, against the values of its steps.
`Traces` lists the values by tensor number and appends that of each step in turn. Where every
step succeeds on the values made before it, a run in order and a walk back from the value
both give the value of the last step. In a run in order a tensor is dropped only when no
read of it is left, so that whatever is still to be read is there. -/

namespace Einsum

variable {τ α : Type} {backend : Backend τ α}

/-- Steps whose actions succeed on the values made before them. -/
inductive Traces (backend : Backend τ α) : List τ → List Step → List τ → Prop
  | nil {values : List τ} : Traces backend values [] values
  | cons {values args values' : List τ} {value : τ} {step : Step} {steps : List Step}
      (reads : step.action.inputs.mapM (fun id => values[id]?) = some args)
      (apply : step.action.apply backend args = .ok value)
      (traces : Traces backend (values ++ [value]) steps values') :
    Traces backend values (step :: steps) values'

theorem exists_of_mapM_eq_some {β γ : Type} {f : β → Option γ} {xs : List β} {ys : List γ}
    (h : xs.mapM f = some ys) : ∀ x ∈ xs, ∃ y, f x = some y := by
  induction xs generalizing ys with
  | nil => simp
  | cons x xs ih =>
    rw [List.mapM_cons] at h
    obtain ⟨y, hy, h⟩ := Option.bind_eq_some_iff.1 h
    obtain ⟨ys, hys, -⟩ := Option.bind_eq_some_iff.1 h
    exact List.forall_mem_cons.2 ⟨⟨y, hy⟩, ih hys⟩

theorem mapM_id_map_ok (args : List τ) :
    (args.map (Except.ok : τ → Except Error τ)).mapM id = .ok args := by
  induction args with
  | nil => rfl
  | cons v args ih =>
    rw [List.map_cons, List.mapM_cons, ih]
    rfl

/-- Results that are all there are not looked at for faults. -/
theorem allResults_eq_ok {β : Type} {f : β → Except Error τ} {g : β → Option τ} {xs : List β}
    {args : List τ} (h : xs.mapM g = some args) (agree : ∀ x ∈ xs, ∀ v, g x = some v → f x = .ok v) :
    allResults (xs.map f) = .ok args := by
  have all : xs.map f = args.map .ok := by
    induction xs generalizing args with
    | nil =>
      obtain rfl : args = [] := (Option.some.inj h).symm
      rfl
    | cons x xs ih =>
      rw [List.mapM_cons] at h
      obtain ⟨v, hv, h⟩ := Option.bind_eq_some_iff.1 h
      obtain ⟨vs, hvs, h⟩ := Option.bind_eq_some_iff.1 h
      obtain rfl := Option.some.inj h
      rw [List.map_cons, List.map_cons, agree x (by simp) v hv,
        ih hvs fun y hy => agree y (List.mem_cons_of_mem x hy)]
  have faultless : (xs.map f).findSome? faultOf? = none := by
    rw [all, List.findSome?_map]
    exact List.findSome?_eq_none_iff.2 fun _ _ => rfl
  rw [allResults, faultless, all, mapM_id_map_ok]

namespace Traces

variable {values values' : List τ} {steps : List Step}

theorem exists_append (traces : Traces backend values steps values') :
    ∃ made, values' = values ++ made ∧ made.length = steps.length := by
  induction traces with
  | nil => exact ⟨[], by simp, rfl⟩
  | cons _ _ _ ih =>
    obtain ⟨made, rfl, length⟩ := ih
    exact ⟨_ :: made, List.append_assoc .., by simp [length]⟩

theorem length_eq (traces : Traces backend values steps values') :
    values'.length = values.length + steps.length := by
  obtain ⟨made, rfl, length⟩ := traces.exists_append
  simp [length]

theorem getElem?_of_lt (traces : Traces backend values steps values') {id : Nat}
    (h : id < values.length) : values'[id]? = values[id]? := by
  obtain ⟨made, rfl, -⟩ := traces.exists_append
  exact List.getElem?_append_left h

/-- What was read once reads the same later. -/
theorem mapM_getElem? (traces : Traces backend values steps values') {ids : List Nat}
    {args : List τ} (h : ids.mapM (fun id => values[id]?) = some args) :
    ids.mapM (fun id => values'[id]?) = some args := by
  have same : ∀ id ∈ ids, values'[id]? = values[id]? := fun id hm => by
    obtain ⟨v, hv⟩ := exists_of_mapM_eq_some h id hm
    exact traces.getElem?_of_lt (List.getElem?_eq_some_iff.1 hv).1
  rw [← h]
  clear h
  induction ids with
  | nil => rfl
  | cons id ids ih =>
    obtain ⟨first, same⟩ := List.forall_mem_cons.1 same
    rw [List.mapM_cons, List.mapM_cons, first, ih same]

theorem getElem? (traces : Traces backend values steps values') {k : Nat} {step : Step}
    (h : steps[k]? = some step) :
    ∃ args value, step.action.inputs.mapM (fun id => (values'.take (values.length + k))[id]?) =
        some args ∧
      step.action.apply backend args = .ok value ∧ values'[values.length + k]? = some value := by
  induction traces generalizing k with
  | nil => simp at h
  | @cons values args values' value step' steps reads apply traces ih =>
    cases k with
    | zero =>
      obtain rfl : step' = step := by simpa using h
      obtain ⟨made, hmade, -⟩ := traces.exists_append
      refine ⟨args, value, ?_, apply, ?_⟩
      · rw [hmade, List.append_assoc]
        simpa using reads
      · rw [hmade]
        simp
    | succ k =>
      have ih := ih (by simpa using h)
      rw [List.length_append, List.length_singleton, Nat.add_assoc, Nat.add_comm 1 k] at ih
      exact ih

end Traces

section Sequential

/-- A run that has come as far as `values`, with the reads of `pending` still to come. -/
structure Run.Agrees (total : Nat) (values : List τ) (pending : List Nat) (run : Run τ) : Prop where
  length : run.cells.length = values.length
  cells : ∀ id v, values[id]? = some v →
    run.cells[id]? = some (.operand v) ∨ run.cells[id]? = some (.made v) ∨
      run.cells[id]? = some .consumed ∧ pending.count id = 0
  reads : ∀ id < total, run.reads[id]? = some (pending.count id)

variable {total : Nat} {values values' : List τ} {pending : List Nat} {run : Run τ} {steps : List Step}

theorem Run.Agrees.read (agrees : run.Agrees total values pending) {id : Nat} (h : id ∈ pending) {v : τ}
    (hv : values[id]? = some v) : run.read id = .ok v := by
  have pos := List.count_pos_iff.2 h
  rcases agrees.cells id v hv with h | h | ⟨-, h⟩
  · simp [Run.read, h]
  · simp [Run.read, h]
  · omega

theorem Run.release_eq_ok {id left : Nat} (reads : run.reads[id]? = some (left + 1)) (operands : Nat)
    (below : id < run.cells.length) :
    run.release operands id =
      .ok ⟨if left = 0 ∧ operands ≤ id then run.cells.set id .consumed else run.cells,
        run.reads.set id left⟩ := by
  by_cases drop : left = 0 ∧ operands ≤ id <;> simp [Run.release, reads, drop, below]

/-- Counting off one read leaves the counts of the others. -/
theorem getElem?_set_count {reads : List Nat} {id : Nat}
    (counts : ∀ other < total, reads[other]? = some ((id :: pending).count other)) :
    ∀ other < total, (reads.set id (pending.count id))[other]? = some (pending.count other) := by
  intro other h
  have hother := counts other h
  rw [List.count_cons] at hother
  rw [List.getElem?_set]
  grind

/-- Done reads are counted off, and what has no read left is dropped unless it is an
operand. -/
theorem Run.Agrees.release {id : Nat} (agrees : run.Agrees total values (id :: pending)) (operands : Nat)
    (below : id < values.length) (bound : values.length ≤ total) :
    ∃ run', run.release operands id = .ok run' ∧ run'.Agrees total values pending := by
  have reads : run.reads[id]? = some (pending.count id + 1) := by
    rw [agrees.reads id (by omega), List.count_cons_self]
  refine ⟨_, Run.release_eq_ok reads operands (agrees.length ▸ below), ?_, fun other v hv => ?_,
    getElem?_set_count agrees.reads⟩
  · split <;> simp [agrees.length]
  · have hother := agrees.cells other v hv
    rw [List.count_cons] at hother
    split
    · rename_i drop
      by_cases same : id = other
      · subst same
        exact .inr (.inr ⟨by simp [agrees.length, below], drop.1⟩)
      · simpa [List.getElem?_set, same] using hother
    · grind

theorem Run.Agrees.releases {ids : List Nat} (agrees : run.Agrees total values (ids ++ pending))
    (operands : Nat) (below : ∀ id ∈ ids, id < values.length) (bound : values.length ≤ total) :
    ∃ run', ids.foldlM (Run.release operands) run = .ok run' ∧ run'.Agrees total values pending := by
  induction ids generalizing run with
  | nil => exact ⟨run, rfl, agrees⟩
  | cons id ids ih =>
    obtain ⟨first, below⟩ := List.forall_mem_cons.1 below
    obtain ⟨run₁, h₁, agrees⟩ := agrees.release operands first bound
    obtain ⟨run₂, h₂, agrees⟩ := ih agrees below
    refine ⟨run₂, ?_, agrees⟩
    rw [List.foldlM_cons, h₁]
    exact h₂

theorem Run.Agrees.step {step : Step} {args : List τ} {value : τ}
    (agrees : run.Agrees total values (step.action.inputs ++ pending))
    (operands : Nat) (bound : values.length < total)
    (reads : step.action.inputs.mapM (fun id => values[id]?) = some args)
    (apply : step.action.apply backend args = .ok value) :
    ∃ cells run', Run.step backend operands run step = .ok run' ∧
      run'.cells = cells ++ [.made value] ∧ run'.Agrees total (values ++ [value]) pending := by
  have hread : allResults (step.action.inputs.map run.read) = .ok args :=
    allResults_eq_ok reads fun id hm v hv => agrees.read (List.mem_append_left _ hm) hv
  have below : ∀ id ∈ step.action.inputs, id < values.length := fun id hm => by
    obtain ⟨v, hv⟩ := exists_of_mapM_eq_some reads id hm
    exact (List.getElem?_eq_some_iff.1 hv).1
  obtain ⟨run', hrelease, agrees'⟩ := agrees.releases operands below (by omega)
  refine ⟨run'.cells, ⟨run'.cells ++ [.made value], run'.reads⟩, ?_, rfl, ?_, fun id v hv => ?_,
    agrees'.reads⟩
  · rw [Run.step, hread]
    simp only [bind, Except.bind, apply, hrelease]
    rfl
  · simp [agrees'.length]
  · rcases Nat.lt_or_ge id values.length with hlt | hge
    · rw [List.getElem?_append_left hlt] at hv
      rw [List.getElem?_append_left (by rw [agrees'.length]; exact hlt)]
      exact agrees'.cells id v hv
    · rw [List.getElem?_append_right hge] at hv
      rw [List.getElem?_append_right (by rw [agrees'.length]; exact hge), agrees'.length]
      obtain ⟨hlt, rfl⟩ := List.getElem?_eq_some_iff.1 hv
      have first : id - values.length = 0 := by simpa using hlt
      exact .inr (.inl (by simp [first]))

/-- A run of some steps leaves the reads of later steps to come. -/
theorem Run.Agrees.foldlM (traces : Traces backend values steps values') (operands : Nat)
    (agrees : run.Agrees total values (steps.flatMap (·.action.inputs) ++ pending))
    (bound : values.length + steps.length ≤ total) :
    ∃ run', steps.foldlM (Run.step backend operands) run = .ok run' ∧
      run'.Agrees total values' pending ∧
      ∀ v, steps ≠ [] → values'.getLast? = some v → run'.cells.getLast? = some (.made v) := by
  induction traces generalizing run with
  | nil => exact ⟨run, rfl, agrees, fun v h => absurd rfl h⟩
  | @cons values args values' value step steps reads apply traces ih =>
    rw [List.length_cons] at bound
    rw [List.flatMap_cons, List.append_assoc] at agrees
    obtain ⟨cells, run₁, hstep, hcells, agrees⟩ := agrees.step operands (by omega) reads apply
    obtain ⟨run₂, hrun, agrees, last⟩ := ih agrees (by simp; omega)
    refine ⟨run₂, by rw [List.foldlM_cons, hstep]; exact hrun, agrees, fun v _ hv => ?_⟩
    cases steps with
    | nil =>
      cases traces
      obtain rfl := Except.ok.inj hrun
      obtain rfl : value = v := by simpa using hv
      simp [hcells]
    | cons next steps => exact last v (by simp) hv

theorem Run.start_agrees (plan : Plan) (operands : List τ) :
    (Run.start plan operands).Agrees plan.tensorCount operands
      (plan.steps.flatMap (·.action.inputs)) where
  length := by simp [Run.start]
  cells id v hv := .inl (by simp [Run.start, hv])
  reads id h := by simp [Run.start, h]

end Sequential

section Walk

variable {plan : Plan} {operands values : List τ} {steps : List Step}

/-- A walk that is deep enough finds every value that the first steps make. -/
theorem valueAt_eq_ok (traces : Traces backend operands steps values) (first : steps <+: plan.steps)
    (length : operands.length = plan.inputs.length) {id : Nat} {v : τ} {depth : Nat}
    (hv : values[id]? = some v) (deep : id < operands.length + depth) :
    plan.valueAt backend operands (depth + 1) id = .ok v := by
  induction depth generalizing id v with
  | zero =>
    rw [traces.getElem?_of_lt deep] at hv
    rw [Plan.valueAt, hv]
  | succ depth ih =>
    by_cases operand : id < operands.length
    · rw [traces.getElem?_of_lt operand] at hv
      rw [Plan.valueAt, hv]
    · have hlt := (List.getElem?_eq_some_iff.1 hv).1
      rw [traces.length_eq] at hlt
      have place : id - plan.inputs.length < steps.length := by omega
      have step := List.getElem?_eq_getElem place
      obtain ⟨args, value, reads, apply, hvalue⟩ := traces.getElem? step
      have number : operands.length + (id - plan.inputs.length) = id := by omega
      rw [number] at reads hvalue
      obtain rfl := Option.some.inj (hv.symm.trans hvalue)
      have planned : plan.stepFor? id = some steps[id - plan.inputs.length] := by
        obtain ⟨rest, hrest⟩ := first
        rw [Plan.stepFor?, if_neg (by omega), ← hrest, List.getElem?_append_left place, step]
      have results := allResults_eq_ok reads fun input _ w hw => by
        rw [List.getElem?_take] at hw
        split at hw
        · exact ih hw (by omega)
        · cases hw
      rw [Plan.valueAt, List.getElem?_eq_none (by omega), planned]
      simp only [bind, Except.bind, results, apply]

end Walk

section Plans

variable {plan : Plan} {operands values : List τ} {value : τ}
  (traces : Traces backend operands plan.steps values) (some_step : plan.steps ≠ [])
  (length : operands.length = plan.inputs.length) (result : plan.result + 1 = values.length)
  (last : values.getLast? = some value)

include traces some_step length result last

theorem runSequential_eq_ok : plan.runSequential backend operands = .ok value := by
  have start := Run.start_agrees plan operands
  rw [← List.append_nil (plan.steps.flatMap _)] at start
  obtain ⟨run, hrun, agrees, hlast⟩ :=
    start.foldlM traces operands.length (by simp [Plan.tensorCount, length])
  have cell := hlast value some_step last
  rw [List.getLast?_eq_getElem?, agrees.length, ← result, Nat.add_sub_cancel] at cell
  rw [Plan.runSequential, hrun]
  simp only [bind, Except.bind, cell]
  rfl

theorem runTree_eq_ok : plan.runTree backend operands = .ok value := by
  have made := traces.length_eq
  have pos := List.length_pos_iff.2 some_step
  have hv : values[plan.result]? = some value := by
    rw [← last, List.getLast?_eq_getElem?, ← result, Nat.add_sub_cancel]
  rw [Plan.runTree, List.getElem?_eq_none (by omega)]
  exact valueAt_eq_ok traces (List.prefix_refl _) length hv (by omega)

theorem run_eq_ok (accepted : plan.requireOperands backend operands = .ok ()) (settings : Settings) :
    plan.run backend operands settings = .ok value := by
  rw [Plan.run, accepted]
  simp only [bind, Except.bind]
  split
  · exact runTree_eq_ok traces some_step length result last
  · exact runSequential_eq_ok traces some_step length result last

end Plans

namespace Plan

variable {got expected : List (List Nat)}

theorem requireShapes_eq_ok_iff (length : got.length = expected.length) (operand : Nat) :
    requireShapes operand got expected = .ok () ↔ got = expected := by
  induction got generalizing expected operand with
  | nil =>
    obtain rfl := List.length_eq_zero_iff.1 length.symm
    simp [requireShapes]
  | cons g got ih =>
    cases expected with
    | nil => cases length
    | cons e expected =>
      rw [requireShapes]
      by_cases same : g = e
      · rw [if_pos same, ih (Nat.succ.inj length), same, List.cons_inj_right]
      · simp [same]

/-- The first operand whose shape is another one is reported. -/
theorem requireShapes_eq_error {k : Nat} {g e : List Nat} (same : ∀ j < k, got[j]? = expected[j]?)
    (hg : got[k]? = some g) (he : expected[k]? = some e) (ne : g ≠ e) (operand : Nat) :
    requireShapes operand got expected = .error (.planShape (operand + k) e g) := by
  induction k generalizing got expected operand with
  | zero =>
    cases got <;> cases expected <;> simp_all [requireShapes]
  | succ k ih =>
    match got, expected with
    | [], _ => simp at hg
    | _ :: _, [] => simp at he
    | g' :: got, e' :: expected =>
      obtain rfl : g' = e' := by simpa using same 0 (by omega)
      have rest : ∀ j < k, got[j]? = expected[j]? := fun j hj => by
        simpa using same (j + 1) (by omega)
      rw [requireShapes, if_pos rfl, ih rest (by simpa using hg) (by simpa using he),
        Nat.add_assoc, Nat.add_comm 1 k]

variable {plan : Plan} {operands : List τ} {settings : Settings}

theorem run_eq_operandCount (h : operands.length ≠ plan.inputs.length) :
    plan.run backend operands settings =
      .error (.operandCount plan.inputs.length operands.length) := by
  rw [run, requireOperands, if_pos h]
  rfl

theorem run_eq_planShape (length : operands.length = plan.inputs.length) {k : Nat} {g e : List Nat}
    (same : ∀ j < k, (operands.map backend.shape)[j]? = plan.inputShapes[j]?)
    (hg : (operands.map backend.shape)[k]? = some g) (he : plan.inputShapes[k]? = some e)
    (ne : g ≠ e) : plan.run backend operands settings = .error (.planShape k e g) := by
  have refused := requireShapes_eq_error same hg he ne 0
  rw [run, requireOperands, if_neg (Classical.not_not.2 length), refused, Nat.zero_add]
  rfl

theorem shapes_eq_of_run (counts : plan.inputs.length = plan.inputShapes.length) {value : τ}
    (h : plan.run backend operands settings = .ok value) :
    operands.map backend.shape = plan.inputShapes := by
  obtain ⟨_, accepted, -⟩ := bind_eq_ok_iff.1 h
  rw [requireOperands] at accepted
  split at accepted
  · cases accepted
  · exact (requireShapes_eq_ok_iff (by rw [List.length_map]; omega) 0).1 accepted

end Plan

end Einsum
