import Mathlib.Data.List.Chain
import Mathlib.Data.List.Perm.Subperm
import Mathlib.Logic.Relation
import Einsum.Document.Plan
import Einsum.Proofs.Agreement

/-! Walks back from the value that never end.
A plan that was not made here may let a step read any tensor, also its own or one that is
computed from its own. A walk back from the value ends just if no tensor that it meets is
computed from itself: a walk that does not end within as many steps as the plan has meets
some tensor twice, and once it meets a tensor that is computed from itself no depth is enough. -/

namespace Einsum

variable {τ α : Type} {backend : Backend τ α}

namespace Plan

/-- The step that makes `id` reads `input`. -/
def Reads (plan : Plan) (input id : Nat) : Prop :=
  ∃ step, plan.stepFor? id = some step ∧ input ∈ step.action.inputs

/-- No tensor that is needed for the value is computed from itself. -/
def Acyclic (plan : Plan) : Prop := ∀ id, plan.Needed id → ¬ Relation.TransGen plan.Reads id id

variable {plan : Plan}

theorem Reads.needed {input id : Nat} (reads : plan.Reads input id) (needed : plan.Needed id) :
    plan.Needed input := by
  obtain ⟨step, made, reads⟩ := reads
  exact needed.input made reads

/-- Reading from lower to higher ranks alone never comes back. -/
theorem acyclic_of_rank (rank : Nat → Nat)
    (lower : ∀ input id, plan.Reads input id → rank input < rank id) : plan.Acyclic := by
  intro id _ cycle
  have descends : ∀ a b, Relation.TransGen plan.Reads a b → rank a < rank b := by
    intro a b path
    induction path with
    | single reads => exact lower _ _ reads
    | tail _ reads ih => exact ih.trans (lower _ _ reads)
  exact absurd (descends id id cycle) (Nat.lt_irrefl _)

theorem Numbered.acyclic (numbered : plan.Numbered) : plan.Acyclic := by
  refine acyclic_of_rank id fun input made reads => ?_
  obtain ⟨step, planned, reads⟩ := reads
  rw [stepFor?] at planned
  split at planned
  · cases planned
  · obtain ⟨number, earlier⟩ := numbered _ step planned
    have := earlier input reads
    simp only [id]
    omega

end Plan

theorem faultOf?_eq_some_iff {x : Except Error τ} {problem : Fault} :
    faultOf? x = some problem ↔ x = .error (.fault problem) := by
  cases x with
  | ok v => simp [faultOf?]
  | error e => cases e <;> simp [faultOf?]

theorem faultOf?_of_bind {β γ : Type} {x : Except Error β} {f : β → Except Error γ}
    (h : faultOf? (x >>= f) = none) : faultOf? x = none := by
  cases x with
  | ok b => rfl
  | error e => cases e <;> first | rfl | cases h

theorem faultOf?_bind {β γ : Type} {f : β → Except Error γ} (faultless : ∀ b, faultOf? (f b) = none)
    (x : Except Error β) : faultOf? (x >>= f) = faultOf? x := by
  cases x with
  | ok b => exact faultless b
  | error e => cases e <;> rfl

/-- The first fault among the results is the fault of all together. -/
theorem faultOf?_allResults_eq (results : List (Except Error τ)) :
    faultOf? (allResults results) = results.findSome? faultOf? := by
  cases h : results.findSome? faultOf? with
  | none => exact faultOf?_allResults (List.findSome?_eq_none_iff.1 h)
  | some problem => rw [allResults, h, faultOf?]

namespace Plan

variable {plan : Plan} {operands : List τ}

theorem needed_of_isChain {path : List Nat} (chain : path.IsChain fun id input => plan.Reads input id)
    (first : ∀ id ∈ path.head?, plan.Needed id) : ∀ id ∈ path, plan.Needed id := by
  induction path with
  | nil => simp
  | cons id path ih =>
    obtain ⟨next, chain⟩ := List.isChain_cons.1 chain
    have needed : plan.Needed id := first id rfl
    exact List.forall_mem_cons.2 ⟨needed, ih chain fun input hm => (next input hm).needed needed⟩

/-- Without a cycle no path of reads from the value meets a tensor twice. -/
theorem Acyclic.nodup (acyclic : plan.Acyclic) {path : List Nat}
    (chain : path.IsChain fun id input => plan.Reads input id)
    (first : ∀ id ∈ path.head?, plan.Needed id) : path.Nodup := by
  let later (id input : Nat) : Prop := Relation.TransGen plan.Reads input id
  have : Trans later later later := ⟨fun near far => far.trans near⟩
  have reaches : path.Pairwise later := (chain.imp fun _ _ reads => .single reads).pairwise
  refine reaches.imp_of_mem fun {id input} hm _ path same => ?_
  subst same
  exact acyclic id (needed_of_isChain chain first id hm) path

/-- As many tensors as there are steps have one. -/
theorem length_le_of_made {path : List Nat} (nodup : path.Nodup)
    (made : ∀ id ∈ path, (plan.stepFor? id).isSome) : path.length ≤ plan.steps.length := by
  have inside : path ⊆ List.range' plan.inputs.length plan.steps.length := fun id hm => by
    have step := made id hm
    rw [stepFor?] at step
    split at step
    · cases step
    · have := (List.getElem?_eq_some_iff.1 (Option.eq_some_of_isSome step)).1
      rw [List.mem_range'_1]
      omega
  simpa using (nodup.subperm inside).length_le

theorem faultOf?_runTree_eq (plan : Plan) (operands : List τ) (faultless : backend.IsFaultless) :
    faultOf? (plan.runTree backend operands) =
      faultOf? (plan.valueAt backend operands (plan.steps.length + 1) plan.result) := by
  rw [runTree]
  split
  · rename_i t operand
    rw [valueAt, operand]
    exact faultless.permute _ _
  · rfl

section Walk

variable (length : operands.length = plan.inputs.length)

include length

theorem valueAt_made {id : Nat} {step : Step} (made : plan.stepFor? id = some step) (depth : Nat) :
    plan.valueAt backend operands (depth + 1) id = (do
      let args ← allResults (step.action.inputs.map (plan.valueAt backend operands depth))
      step.action.apply backend args) := by
  have outside : operands.length ≤ id := by
    rw [stepFor?] at made
    split at made
    · cases made
    · omega
  rw [valueAt, List.getElem?_eq_none outside, made]

/-- A walk that ended comes to the same when it may go deeper. -/
theorem valueAt_succ_eq {depth id : Nat}
    (ended : faultOf? (plan.valueAt backend operands depth id) = none) :
    plan.valueAt backend operands (depth + 1) id = plan.valueAt backend operands depth id := by
  induction depth generalizing id with
  | zero => cases ended
  | succ depth ih =>
    cases made : plan.stepFor? id with
    | none => rw [valueAt, valueAt, made]
    | some step =>
      rw [valueAt_made length made] at ended
      have inputs := faultOf?_of_bind ended
      rw [faultOf?_allResults_eq, List.findSome?_eq_none_iff] at inputs
      rw [valueAt_made length made, valueAt_made length made,
        List.map_congr_left fun input hm => ih (inputs _ (List.mem_map_of_mem hm))]

theorem valueAt_eq_of_le {depth depth' id : Nat} (deeper : depth ≤ depth')
    (ended : faultOf? (plan.valueAt backend operands depth id) = none) :
    plan.valueAt backend operands depth' id = plan.valueAt backend operands depth id := by
  induction deeper with
  | refl => rfl
  | step _ ih =>
    rw [valueAt_succ_eq length (by rw [ih]; exact ended), ih]

variable (faultless : backend.IsFaultless)

include faultless

/-- A walk has the fault of the first input that has one. -/
theorem faultOf?_valueAt_made {id : Nat} {step : Step} (made : plan.stepFor? id = some step)
    (depth : Nat) : faultOf? (plan.valueAt backend operands (depth + 1) id) =
      step.action.inputs.findSome? fun input => faultOf? (plan.valueAt backend operands depth input) := by
  rw [valueAt_made length made, faultOf?_bind (faultless.apply step.action),
    faultOf?_allResults_eq, List.findSome?_map]
  rfl

/-- Walks have no fault but that they do not end. -/
theorem eq_endless_of_faultOf? {depth id : Nat} {problem : Fault}
    (h : faultOf? (plan.valueAt backend operands depth id) = some problem) : problem = .endless := by
  induction depth generalizing id with
  | zero => exact (Option.some.inj h).symm
  | succ depth ih =>
    cases made : plan.stepFor? id with
    | none =>
      rw [valueAt, made] at h
      split at h <;> cases h
    | some step =>
      rw [faultOf?_valueAt_made length faultless made] at h
      obtain ⟨input, -, h⟩ := List.exists_of_findSome?_eq_some h
      exact ih h

theorem valueAt_eq_endless_of_reads {input id depth : Nat} (reads : plan.Reads input id)
    (h : plan.valueAt backend operands depth input = .error (.fault .endless)) :
    plan.valueAt backend operands (depth + 1) id = .error (.fault .endless) := by
  obtain ⟨step, made, reads⟩ := reads
  rw [← faultOf?_eq_some_iff] at h ⊢
  cases fault : faultOf? (plan.valueAt backend operands (depth + 1) id) with
  | some problem => rw [eq_endless_of_faultOf? length faultless fault]
  | none =>
    rw [faultOf?_valueAt_made length faultless made, List.findSome?_eq_none_iff] at fault
    cases h.symm.trans (fault input reads)

/-- No depth is enough for a tensor that is computed from itself. -/
theorem valueAt_eq_endless_of_cycle {id : Nat} (cycle : Relation.TransGen plan.Reads id id)
    (depth : Nat) : plan.valueAt backend operands depth id = .error (.fault .endless) := by
  induction depth generalizing id with
  | zero => rfl
  | succ depth ih =>
    obtain ⟨input, path, reads⟩ := Relation.TransGen.tail'_iff.1 cycle
    exact valueAt_eq_endless_of_reads length faultless reads (ih (.head' reads path))

/-- Nor for the value when it needs such a tensor. -/
theorem Needed.valueAt_result_eq_endless {id : Nat} (needed : plan.Needed id)
    (h : ∀ depth, plan.valueAt backend operands depth id = .error (.fault .endless)) :
    ∀ depth, plan.valueAt backend operands depth plan.result = .error (.fault .endless) := by
  induction needed with
  | result => exact h
  | input needed made reads ih =>
    refine ih fun depth => ?_
    cases depth with
    | zero => rfl
    | succ depth => exact valueAt_eq_endless_of_reads length faultless ⟨_, made, reads⟩ (h depth)

/-- A walk that does not end goes through as many tensors as it may, each read by the step
that makes the one before. -/
theorem exists_path {depth id : Nat} {problem : Fault}
    (h : faultOf? (plan.valueAt backend operands depth id) = some problem) :
    ∃ path : List Nat, path.length = depth ∧ (∀ first ∈ path.head?, first = id) ∧
      path.IsChain (fun id input => plan.Reads input id) ∧
      ∀ made ∈ path, (plan.stepFor? made).isSome := by
  induction depth generalizing id with
  | zero => exact ⟨[], rfl, by simp, .nil, by simp⟩
  | succ depth ih =>
    cases made : plan.stepFor? id with
    | none =>
      rw [valueAt, made] at h
      split at h <;> cases h
    | some step =>
      rw [faultOf?_valueAt_made length faultless made] at h
      obtain ⟨input, reads, h⟩ := List.exists_of_findSome?_eq_some h
      obtain ⟨path, rfl, first, chain, all⟩ := ih h
      refine ⟨id :: path, rfl, by simp, List.isChain_cons.2 ⟨fun next hm => ?_, chain⟩, ?_⟩
      · rw [first next hm]
        exact ⟨step, made, reads⟩
      · exact List.forall_mem_cons.2 ⟨by rw [made]; rfl, all⟩

/-- A walk as deep as there are steps ends unless it comes back to a tensor. -/
theorem Acyclic.faultOf?_valueAt (acyclic : plan.Acyclic) :
    faultOf? (plan.valueAt backend operands (plan.steps.length + 1) plan.result) = none := by
  by_contra fault
  obtain ⟨problem, fault⟩ := Option.ne_none_iff_exists'.1 fault
  obtain ⟨path, count, first, chain, made⟩ := exists_path length faultless fault
  have nodup := acyclic.nodup chain fun id hm => first id hm ▸ .result
  have := length_le_of_made nodup made
  omega

/-- Without an end there is a cycle, and with a cycle no end. -/
theorem valueAt_eq_endless_iff :
    (∀ depth, plan.valueAt backend operands depth plan.result = .error (.fault .endless)) ↔
      ¬ plan.Acyclic := by
  constructor
  · intro endless acyclic
    have ended := acyclic.faultOf?_valueAt length faultless
    rw [endless] at ended
    cases ended
  · intro cyclic
    simp only [Acyclic, not_forall, not_not] at cyclic
    obtain ⟨id, needed, cycle⟩ := cyclic
    exact needed.valueAt_result_eq_endless length faultless
      (valueAt_eq_endless_of_cycle length faultless cycle)

end Walk

/-- A plan is run as a tree to a value or an error just if no tensor that the value needs is
computed from itself; then walks may go deeper and come to the same. Otherwise no depth is
enough for the walk back from the value. -/
theorem run_ends_iff {settings : Settings} (accepted : plan.requireOperands backend operands = .ok ())
    (faultless : backend.IsFaultless) (parallel : settings.parallel = true)
    (several : 1 < plan.contractionCount) :
    (faultOf? (plan.run backend operands settings) = none ↔ plan.Acyclic) ∧
    (plan.Acyclic → ∀ depth, plan.steps.length < depth →
      plan.valueAt backend operands depth plan.result =
        plan.valueAt backend operands (plan.steps.length + 1) plan.result) ∧
    (¬ plan.Acyclic → plan.run backend operands settings = .error (.fault .endless) ∧
      ∀ depth, plan.valueAt backend operands depth plan.result = .error (.fault .endless)) := by
  have length := length_eq_of_requireOperands accepted
  have tree : plan.run backend operands settings = plan.runTree backend operands := by
    rw [run, accepted, parallel, Bool.true_and, if_pos (decide_eq_true several)]
    rfl
  have endless : (∀ depth, plan.valueAt backend operands depth plan.result =
      .error (.fault .endless)) ↔ ¬ plan.Acyclic := valueAt_eq_endless_iff length faultless
  rw [tree, faultOf?_runTree_eq plan operands faultless]
  refine ⟨⟨fun ended => ?_, fun acyclic => acyclic.faultOf?_valueAt length faultless⟩,
    fun acyclic depth deep =>
      valueAt_eq_of_le length deep (acyclic.faultOf?_valueAt length faultless),
    fun cyclic => ⟨?_, endless.2 cyclic⟩⟩
  · by_contra cyclic
    rw [endless.2 cyclic] at ended
    cases ended
  · rw [← faultOf?_eq_some_iff, faultOf?_runTree_eq plan operands faultless, endless.2 cyclic]
    rfl

/-- The value `5 * 5 * 5` by a plan whose first step reads what its second one makes. -/
theorem run_ends_iff_forward :
    let backend : Backend Nat Nat := ⟨fun _ => [], id, fun t _ => .ok t, fun t _ => .ok t,
      fun t _ => .ok t, fun a b _ => .ok (a * b)⟩
    let multiply (left right : Nat) : Action := .contract left right ⟨[], [], [], []⟩ ⟨[], [], [], []⟩ 1
    let plan : Plan := ⟨[⟨multiply 2 0, [], 1⟩, ⟨multiply 0 0, [], 1⟩], [[]], [[]], [], [],
      .leftToRight, 2⟩
    plan.requireOperands backend [5] = .ok () ∧ backend.IsFaultless ∧ Settings.fast.parallel = true ∧
      1 < plan.contractionCount ∧ plan.Acyclic ∧ faultOf? (plan.run backend [5] .fast) = none ∧
      plan.run backend [5] .fast = .ok 125 := by
  intro backend multiply plan
  have accepted : plan.requireOperands backend [5] = .ok () := rfl
  have faultless : backend.IsFaultless :=
    ⟨fun _ _ => rfl, fun _ _ => rfl, fun _ _ => rfl, fun _ _ _ => rfl⟩
  have several : 1 < plan.contractionCount := by decide
  have acyclic : plan.Acyclic := by
    refine acyclic_of_rank (fun id => if id = 0 then 0 else 3 - id) fun input id reads => ?_
    obtain ⟨step, made, reads⟩ := reads
    match id, made with
    | 1, made =>
      obtain rfl := Option.some.inj made
      obtain rfl | rfl : input = 2 ∨ input = 0 := by simpa [multiply, Action.inputs] using reads
      · decide
      · decide
    | 2, made =>
      obtain rfl := Option.some.inj made
      obtain rfl : input = 0 := by simpa [multiply, Action.inputs] using reads
      decide
  have parallel : Settings.fast.parallel = true := rfl
  have ends := (run_ends_iff accepted faultless parallel several).1.2 acyclic
  exact ⟨accepted, faultless, parallel, several, acyclic, ends, rfl⟩

/-- Every tensor is read by exactly one step, but the two steps read each other's. -/
theorem not_run_ends :
    let backend := Tensor.backend Nat
    let operands : List (Tensor Nat) := [.scalar 5, .scalar 7]
    let multiply (left right : Nat) : Action := .contract left right ⟨[], [], [], []⟩ ⟨[], [], [], []⟩ 2
    let plan : Plan := ⟨[⟨multiply 3 0, [], 2⟩, ⟨multiply 2 1, [], 3⟩], [[], []], [[], []], [], [],
      .leftToRight, 4⟩
    Plan.codec.decode (Plan.codec.encode plan) = some plan ∧
      (plan.steps.flatMap (·.action.inputs)).Perm (List.range plan.tensorCount) ∧
      plan.requireOperands backend operands = .ok () ∧ 1 < plan.contractionCount ∧
      plan.run backend operands .fast = .error (.fault .endless) ∧
      ∀ depth, plan.valueAt backend operands depth plan.result = .error (.fault .endless) := by
  intro backend operands multiply plan
  have made : ∀ depth, plan.valueAt backend operands depth 2 = .error (.fault .endless) ∧
      plan.valueAt backend operands depth 3 = .error (.fault .endless) := by
    intro depth
    induction depth with
    | zero => exact ⟨rfl, rfl⟩
    | succ depth ih =>
      constructor
      · change (do
          let args ← allResults [plan.valueAt backend operands depth 3, _]
          (multiply 3 0).apply backend args) = _
        rw [ih.2]
        rfl
      · change (do
          let args ← allResults [plan.valueAt backend operands depth 2, _]
          (multiply 2 1).apply backend args) = _
        rw [ih.1]
        rfl
  have once : (plan.steps.flatMap (·.action.inputs)).Perm (List.range plan.tensorCount) := by decide
  exact ⟨rfl, once, rfl, by decide, (made 3).2, fun depth => (made depth).2⟩

end Plan

end Einsum
