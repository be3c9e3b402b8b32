import Einsum.Proofs.Cycles

/-! What a run in order keeps and drops.
A plan that was read from elsewhere may name any tensors, in any order and any number of
times. The books of a run say which reads are done and which are to come: they are right
before every step, whatever the plan says, so that a tensor is dropped after its last read
and never missed by a later one. -/

namespace Einsum

variable {τ α : Type} {backend : Backend τ α}

/-- The errors that the primitives of a backend return. -/
inductive Backend.Raises (backend : Backend τ α) : Error → Prop
  | diagonal {t : τ} {groups : List (List Nat)} {e : Error} (h : backend.diagonal t groups = .error e) :
    backend.Raises e
  | permute {t : τ} {axes : List Nat} {e : Error} (h : backend.permute t axes = .error e) :
    backend.Raises e
  | sumOver {t : τ} {axes : List Nat} {e : Error} (h : backend.sumOver t axes = .error e) :
    backend.Raises e
  | contract {left right : τ} {axes : ContractionAxes} {e : Error}
    (h : backend.contract left right axes = .error e) : backend.Raises e

def readsOf (steps : List Step) : List Nat := steps.flatMap (·.action.inputs)

@[simp] theorem readsOf_cons (step : Step) (steps : List Step) :
    readsOf (step :: steps) = step.action.inputs ++ readsOf steps := List.flatMap_cons

@[simp] theorem readsOf_append (first second : List Step) :
    readsOf (first ++ second) = readsOf first ++ readsOf second := List.flatMap_append

/-- A run with the reads of `past` behind it and those of `pending` to come. -/
structure Run.Accounts (operands total : Nat) (past pending : List Nat) (run : Run τ) : Prop where
  /-- What was read exists. -/
  past_lt : ∀ id ∈ past, id < run.cells.length
  counts : ∀ id < total, run.reads[id]? = some (pending.count id)
  /-- Dropped are exactly the tensors made by steps whose last read is done. -/
  consumed : ∀ id, run.cells[id]? = some .consumed ↔ operands ≤ id ∧ id ∈ past ∧ id ∉ pending

theorem bind_eq_error_iff {β γ : Type} {x : Except Error β} {f : β → Except Error γ} {e : Error} :
    x >>= f = .error e ↔ x = .error e ∨ ∃ b, x = .ok b ∧ f b = .error e := by
  cases x <;> simp [bind, Except.bind]

theorem error_mem_of_mapM {results : List (Except Error τ)} {e : Error}
    (h : results.mapM id = .error e) : .error e ∈ results := by
  induction results with
  | nil => cases h
  | cons x results ih =>
    rw [List.mapM_cons] at h
    obtain first | ⟨v, -, h⟩ := bind_eq_error_iff.1 h
    · exact first ▸ List.mem_cons_self
    · obtain rest | ⟨vs, -, h⟩ := bind_eq_error_iff.1 h
      · exact List.mem_cons_of_mem x (ih rest)
      · cases h

/-- What is missing from a list of results is one of its errors. -/
theorem error_mem_of_allResults {results : List (Except Error τ)} {e : Error}
    (h : allResults results = .error e) : .error e ∈ results := by
  rw [allResults] at h
  split at h
  · rename_i problem found
    obtain ⟨x, hx, fault⟩ := List.exists_of_findSome?_eq_some found
    cases h
    exact faultOf?_eq_some_iff.1 fault ▸ hx
  · exact error_mem_of_mapM h

/-- A step that reads as many tensors as it asks for fails only in its primitive. -/
theorem Backend.raises_of_apply {action : Action} {args : List τ} {e : Error}
    (length : args.length = action.inputs.length) (h : action.apply backend args = .error e) :
    backend.Raises e := by
  match action, args, length with
  | .diagonalize .., [t], _ => exact .diagonal h
  | .reduceSum .., [t], _ => exact .sumOver h
  | .contract .., [left, right], _ => exact .contract h
  | .permute .., [t], _ => exact .permute h

namespace Run

variable {operands total : Nat} {past pending : List Nat} {run : Run τ}

theorem start_accounts (plan : Plan) (operands : List τ) :
    (start plan operands).Accounts operands.length plan.tensorCount [] (readsOf plan.steps) where
  past_lt _ h := absurd h List.not_mem_nil
  counts id h := by simp [start, h, readsOf]
  consumed id := by simp [start]

/-- What is still to be read was not dropped. -/
theorem Accounts.read (accounts : run.Accounts operands total past pending) {id : Nat} (h : id ∈ pending) :
    (∃ t, run.read id = .ok t) ∨
      run.cells.length ≤ id ∧ run.read id = .error (.backend (.unknownTensor id)) := by
  cases cell : run.cells[id]? with
  | none => exact .inr ⟨List.getElem?_eq_none_iff.1 cell, by rw [Run.read, cell]⟩
  | some c =>
    cases c with
    | operand t => exact .inl ⟨t, by rw [Run.read, cell]⟩
    | made t => exact .inl ⟨t, by rw [Run.read, cell]⟩
    | consumed => exact absurd h ((accounts.consumed id).1 cell).2.2

theorem Accounts.release {id : Nat} (accounts : run.Accounts operands total past (id :: pending))
    (below : id < run.cells.length) (bound : run.cells.length ≤ total) :
    ∃ run', run.release operands id = .ok run' ∧ run'.cells.length = run.cells.length ∧
      run'.Accounts operands total (past ++ [id]) pending := by
  have reads : run.reads[id]? = some (pending.count id + 1) := by
    rw [accounts.counts id (by omega), List.count_cons_self]
  have length : (if pending.count id = 0 ∧ operands ≤ id then run.cells.set id .consumed
      else run.cells).length = run.cells.length := by split <;> simp
  refine ⟨_, release_eq_ok reads operands below, length, fun other h => ?_,
    getElem?_set_count accounts.counts, fun other => ?_⟩
  · rw [length]
    obtain h | h := List.mem_append.1 h
    · exact accounts.past_lt other h
    · exact List.mem_singleton.1 h ▸ below
  · have before := accounts.consumed other
    have unread := List.count_eq_zero (a := id) (l := pending)
    grind

theorem Accounts.releases {ids : List Nat} (accounts : run.Accounts operands total past (ids ++ pending))
    (below : ∀ id ∈ ids, id < run.cells.length) (bound : run.cells.length ≤ total) :
    ∃ run', ids.foldlM (Run.release operands) run = .ok run' ∧ run'.cells.length = run.cells.length ∧
      run'.Accounts operands total (past ++ ids) pending := by
  induction ids generalizing past run with
  | nil => exact ⟨run, rfl, rfl, by simpa using accounts⟩
  | cons id ids ih =>
    obtain ⟨first, below⟩ := List.forall_mem_cons.1 below
    obtain ⟨run₁, h₁, length₁, accounts⟩ := accounts.release first bound
    obtain ⟨run₂, h₂, length₂, accounts⟩ := ih accounts (length₁ ▸ below) (length₁ ▸ bound)
    refine ⟨run₂, ?_, length₂.trans length₁, by simpa using accounts⟩
    rw [List.foldlM_cons, h₁]
    exact h₂

/-- Once the reads of a step have been listed, its counters go down and its tensors are dropped
without a fault. -/
theorem Accounts.releases_of_read {ids : List Nat} {args : List τ}
    (accounts : run.Accounts operands total past (ids ++ pending))
    (bound : run.cells.length ≤ total) (read : allResults (ids.map run.read) = .ok args) :
    ∃ run', ids.foldlM (Run.release operands) run = .ok run' ∧ run'.cells.length = run.cells.length ∧
      run'.Accounts operands total (past ++ ids) pending := by
  refine accounts.releases (fun id hm => ?_) bound
  obtain ⟨t, ht⟩ := exists_eq_ok_of_allResults read _ (List.mem_map_of_mem hm)
  by_contra outside
  rw [Run.read, List.getElem?_eq_none (Nat.not_lt.1 outside)] at ht
  cases ht

/-- Reads that fail name a tensor that does not exist. -/
theorem Accounts.unknown_of_read {ids : List Nat} {e : Error}
    (accounts : run.Accounts operands total past (ids ++ pending))
    (read : allResults (ids.map run.read) = .error e) : ∃ id, e = .backend (.unknownTensor id) := by
  obtain ⟨id, hm, h⟩ := List.mem_map.1 (error_mem_of_allResults read)
  obtain ⟨t, ht⟩ | ⟨-, unknown⟩ := accounts.read (List.mem_append_left pending hm)
  · cases ht.symm.trans h
  · exact ⟨id, Except.error.inj (h.symm.trans unknown)⟩

/-- A new tensor was not read before. -/
theorem Accounts.append_made (accounts : run.Accounts operands total past pending) (value : τ) :
    Run.Accounts operands total past pending ⟨run.cells ++ [.made value], run.reads⟩ where
  past_lt id hm := by
    rw [List.length_append]
    exact Nat.lt_add_right _ (accounts.past_lt id hm)
  counts := accounts.counts
  consumed id := by
    have old := accounts.consumed id
    have made := accounts.past_lt id
    rw [List.getElem?_append]
    grind

/-- A step whose books are in order reads a tensor that does not exist, or fails in its primitive,
or leaves the books in order. -/
theorem Accounts.step {step : Step}
    (accounts : run.Accounts operands total past (step.action.inputs ++ pending))
    (bound : run.cells.length < total) :
    (∃ e, run.step backend operands step = .error e ∧
      (backend.Raises e ∨ ∃ id, e = .backend (.unknownTensor id))) ∨
    ∃ run', run.step backend operands step = .ok run' ∧ run'.cells.length = run.cells.length + 1 ∧
      run'.Accounts operands total (past ++ step.action.inputs) pending := by
  cases read : allResults (step.action.inputs.map run.read) with
  | error e => exact .inl ⟨e, by rw [Run.step, read]; rfl, .inr (accounts.unknown_of_read read)⟩
  | ok args =>
    cases apply : step.action.apply backend args with
    | error e =>
      refine .inl ⟨e, ?_, .inl (Backend.raises_of_apply ?_ apply)⟩
      · rw [Run.step, read]
        simp only [bind, Except.bind, apply]
      · simpa using (congrArg List.length (eq_map_ok_of_allResults read)).symm
    | ok value =>
      obtain ⟨run', released, length, accounts'⟩ := accounts.releases_of_read (Nat.le_of_lt bound) read
      refine .inr ⟨⟨run'.cells ++ [.made value], run'.reads⟩, ?_, ?_, accounts'.append_made value⟩
      · rw [Run.step, read]
        simp only [bind, Except.bind, apply, released]
        rfl
      · rw [List.length_append, length, List.length_singleton]

/-- So does every run of some steps. -/
theorem Accounts.foldlM (backend : Backend τ α) {steps : List Step}
    (accounts : run.Accounts operands total past (readsOf steps ++ pending))
    (bound : run.cells.length + steps.length ≤ total) :
    (∃ e, steps.foldlM (Run.step backend operands) run = .error e ∧
      (backend.Raises e ∨ ∃ id, e = .backend (.unknownTensor id))) ∨
    ∃ run', steps.foldlM (Run.step backend operands) run = .ok run' ∧
      run'.cells.length = run.cells.length + steps.length ∧
      run'.Accounts operands total (past ++ readsOf steps) pending := by
  induction steps generalizing past run with
  | nil => exact .inr ⟨run, rfl, rfl, by simpa [readsOf] using accounts⟩
  | cons step steps ih =>
    rw [List.length_cons] at bound
    rw [readsOf_cons, List.append_assoc] at accounts
    rw [List.foldlM_cons]
    obtain ⟨e, failed, blame⟩ | ⟨run₁, stepped, length, accounts⟩ := accounts.step (by omega)
    · rw [failed]
      exact .inl ⟨e, rfl, blame⟩
    · rw [stepped]
      refine (ih accounts (by omega)).imp id ?_
      rintro ⟨run₂, ran, length', accounts⟩
      refine ⟨run₂, ran, by rw [length', length, List.length_cons]; omega, ?_⟩
      rwa [readsOf_cons, ← List.append_assoc]

end Run

/-- A state of a run in order, between the steps of `done` and those of `rest`. -/
structure Plan.Passes (backend : Backend τ α) (plan : Plan) (operands : List τ) (done rest : List Step)
    (run : Run τ) : Prop where
  steps : plan.steps = done ++ rest
  ran : done.foldlM (Run.step backend operands.length) (.start plan operands) = .ok run

section Plans

variable {plan : Plan} {operands : List τ} {done rest : List Step}
  (length : operands.length = plan.inputs.length) (steps : plan.steps = done ++ rest)

include length steps

theorem Run.accounts_of_steps (backend : Backend τ α) :
    (∃ e, done.foldlM (Run.step backend operands.length) (.start plan operands) = .error e ∧
      (backend.Raises e ∨ ∃ id, e = .backend (.unknownTensor id))) ∨
    ∃ run, done.foldlM (Run.step backend operands.length) (.start plan operands) = .ok run ∧
      run.cells.length = operands.length + done.length ∧
      run.Accounts operands.length plan.tensorCount (readsOf done) (readsOf rest) := by
  have start := Run.start_accounts plan operands
  have cells : (Run.start plan operands).cells.length = operands.length := List.length_map _
  have count := congrArg List.length steps
  rw [List.length_append] at count
  rw [steps, readsOf_append] at start
  have run := start.foldlM backend (by rw [cells, Plan.tensorCount, count]; omega)
  rwa [cells, List.nil_append] at run

theorem Plan.Passes.accounts {run : Run τ} (passes : plan.Passes backend operands done rest run) :
    run.cells.length = operands.length + done.length ∧
      run.Accounts operands.length plan.tensorCount (readsOf done) (readsOf rest) := by
  obtain ⟨e, failed, -⟩ | ⟨run', ran, books⟩ := Run.accounts_of_steps length steps backend
  · cases passes.ran.symm.trans failed
  · obtain rfl := Except.ok.inj (passes.ran.symm.trans ran)
    exact books

end Plans

/-- A run in order of any plan. Between any two steps every counter is the number of reads
still to come, and the tensors that are dropped are those that steps have made and that were
read and will not be read again. Every tensor that a step reads is there or was never made,
and once all of them are there their counters go down without a fault. So the only errors
are those of the primitives, a read of a tensor that was never made, and a missing result. -/
theorem runSequential_safe {plan : Plan} {operands : List τ}
    (accepted : plan.requireOperands backend operands = .ok ()) :
    (∀ done rest run, plan.Passes backend operands done rest run →
      run.cells.length = operands.length + done.length ∧
      run.Accounts operands.length plan.tensorCount (readsOf done) (readsOf rest)) ∧
    (∀ done step rest run, plan.Passes backend operands done (step :: rest) run →
      (∀ id ∈ step.action.inputs, (∃ t, run.read id = .ok t) ∨
        run.cells.length ≤ id ∧ run.read id = .error (.backend (.unknownTensor id))) ∧
      ∀ args, allResults (step.action.inputs.map run.read) = .ok args →
        ∃ released, step.action.inputs.foldlM (Run.release operands.length) run = .ok released) ∧
    ∀ e, plan.runSequential backend operands = .error e →
      backend.Raises e ∨ (∃ id, e = .backend (.unknownTensor id)) ∨
        e = .backend (.missingResult plan.result) := by
  have length := Plan.length_eq_of_requireOperands accepted
  refine ⟨fun done rest run passes => passes.accounts length passes.steps, fun done step rest run passes => ?_,
    fun e failed => ?_⟩
  · obtain ⟨cells, accounts⟩ := passes.accounts length passes.steps
    rw [readsOf_cons] at accounts
    refine ⟨fun id hm => accounts.read (List.mem_append_left _ hm), fun args read => ?_⟩
    have steps := congrArg List.length passes.steps
    rw [List.length_append, List.length_cons] at steps
    obtain ⟨released, h, -⟩ := accounts.releases_of_read
      (by rw [cells, Plan.tensorCount, steps]; omega) read
    exact ⟨released, h⟩
  · obtain ⟨e', stopped, blame⟩ | ⟨run, ran, -⟩ :=
      Run.accounts_of_steps length (List.append_nil plan.steps).symm backend
    · rw [Plan.runSequential, stopped] at failed
      obtain rfl := Except.error.inj failed
      exact blame.imp_right .inl
    · rw [Plan.runSequential, ran] at failed
      simp only [bind, Except.bind] at failed
      split at failed
      · cases failed
      · exact .inl (.permute failed)
      · exact .inr (.inr (Except.error.inj failed).symm)

/-- Steps that each read a tensor twice and name any results: the square is dropped once it was
squared, and the result is one that no step made. -/
theorem runSequential_safe_squares :
    let backend : Backend Nat Nat := ⟨fun _ => [], id, fun t _ => .ok t, fun t _ => .ok t,
      fun t _ => .ok t, fun a b _ => .ok (a * b)⟩
    let multiply (left right result : Nat) : Step :=
      ⟨.contract left right ⟨[], [], [], []⟩ ⟨[], [], [], []⟩ 1, [], result⟩
    let plan : Plan := ⟨[multiply 0 0 9, multiply 2 2 2, multiply 3 1 5], [[], []], [[], []], [], [],
      .leftToRight, 3⟩
    let run : Run Nat := ⟨[.operand 5, .operand 7, .consumed, .made 625], [0, 1, 0, 1, 0]⟩
    plan.requireOperands backend [5, 7] = .ok () ∧
      plan.Passes backend [5, 7] [multiply 0 0 9, multiply 2 2 2] [multiply 3 1 5] run ∧
      run.Accounts 2 5 [0, 0, 2, 2] [3, 1] ∧
      plan.runSequential backend [5, 7] = .error (.backend (.missingResult 5)) := by
  intro backend multiply plan run
  have accepted : plan.requireOperands backend [5, 7] = .ok () := rfl
  have passes : plan.Passes backend [5, 7] [multiply 0 0 9, multiply 2 2 2] [multiply 3 1 5] run :=
    ⟨rfl, rfl⟩
  exact ⟨accepted, passes, ((runSequential_safe accepted).1 _ _ _ passes).2, rfl⟩

end Einsum
