import Einsum.Plan.Create
import Einsum.Proofs.Actions

/-! Steps as moves between tensors at hand.
A step takes the tensors that it reads from those at hand and puts its own among them, and
sums only labels that neither the output nor a tensor left behind has. So it keeps what the
tensors at hand denote together, and it cannot fail while every tensor at hand has the shape
that its labels tell. -/

namespace Einsum

/-- A step from the tensors `sources` to `sources'`, where the new tensor has the number
`next`. -/
inductive Move (output : Labels) (next : Nat) (sources : List Source) :
    Step → List Source → Prop
  | mk {sources' old rest : List Source} {action : Action} {made : Labels}
      (before : sources.Perm (old ++ rest)) (after : sources'.Perm (⟨next, made⟩ :: rest))
      (inputs : action.inputs = old.map (·.id))
      (relabels : action.Relabels (old.map (·.labels)) made)
      (free : ∀ c ∈ action.summed, c ∉ output ∧ ∀ source ∈ rest, c ∉ source.labels)
      (needed : ∀ c ∈ made, c ∉ output → (∀ source ∈ rest, c ∉ source.labels) →
        old.countP (·.labels.contains c) = 1) :
    Move output next sources ⟨action, made, next⟩ sources'

/-- Steps one after the other, whose tensors are numbered from `next`. -/
inductive Moves (output : Labels) : Nat → List Source → List Step → List Source → Prop
  | nil {next : Nat} {sources : List Source} : Moves output next sources [] sources
  | cons {next : Nat} {sources sources' sources'' : List Source} {step : Step}
      {steps : List Step} (move : Move output next sources step sources')
      (moves : Moves output (next + 1) sources' steps sources'') :
    Moves output next sources (step :: steps) sources''

theorem Moves.append {output : Labels} {next : Nat} {sources sources' sources'' : List Source}
    {steps steps' : List Step} (first : Moves output next sources steps sources')
    (second : Moves output (next + steps.length) sources' steps' sources'') :
    Moves output next sources (steps ++ steps') sources'' := by
  induction first with
  | nil => exact second
  | cons move moves ih =>
    refine .cons move (ih ?_)
    rwa [List.length_cons, Nat.add_comm _ 1, ← Nat.add_assoc] at second

def Alive (sources : List Source) (c : Label) : Prop := ∃ source ∈ sources, c ∈ source.labels

instance (sources : List Source) (c : Label) : Decidable (Alive sources c) :=
  inferInstanceAs (Decidable (∃ source ∈ sources, c ∈ source.labels))

/-- A label that the output lacks never lives in one tensor only. -/
def Shared (output : Labels) (sources : List Source) : Prop :=
  ∀ c, c ∉ output → sources.countP (·.labels.contains c) ≠ 1

theorem countP_contains_eq_zero {sources : List Source} {c : Label} :
    sources.countP (·.labels.contains c) = 0 ↔ ∀ source ∈ sources, c ∉ source.labels := by
  simp [List.countP_eq_zero]

namespace Move

variable {output : Labels} {next : Nat} {sources sources' : List Source} {step : Step}
  {c : Label}

/-- A tensor replaced in its place by an action that reads it alone. -/
theorem replace {done rest : List Source} {source : Source} {action : Action} {labels : Labels}
    (inputs : action.inputs = [source.id]) (relabels : action.Relabels [source.labels] labels)
    (alone : ∀ c ∈ action.summed,
      c ∉ output ∧ (done ++ source :: rest).countP (·.labels.contains c) ≤ 1) :
    Move output next (done ++ source :: rest) ⟨action, labels, next⟩
      (done ++ ⟨next, labels⟩ :: rest) := by
  have before : (done ++ source :: rest).Perm ([source] ++ (done ++ rest)) := List.perm_middle
  refine .mk before List.perm_middle inputs relabels (fun c hc => ?_) fun c hc _ _ => ?_
  · obtain ⟨hout, count⟩ := alone c hc
    have read : c ∈ source.labels := by simpa using relabels.mem_read_iff.2 (.inl hc)
    rw [before.countP_eq, List.countP_append, List.countP_singleton,
      if_pos (List.contains_iff_mem.2 read)] at count
    exact ⟨hout, countP_contains_eq_zero.1 (by omega)⟩
  · have read : c ∈ source.labels := by simpa using relabels.mem_read_iff.2 (.inr hc)
    simp [read]

theorem alive_iff (move : Move output next sources step sources') :
    Alive sources c ↔ c ∈ step.action.summed ∨ Alive sources' c := by
  obtain @⟨_, old, rest, action, made, before, after, -, relabels, -, -⟩ := move
  have read : (∃ source ∈ old, c ∈ source.labels) ↔ c ∈ action.summed ∨ c ∈ made := by
    simpa using relabels.mem_read_iff (c := c)
  have hbefore : Alive sources c ↔
      (∃ source ∈ old, c ∈ source.labels) ∨ ∃ source ∈ rest, c ∈ source.labels := by
    simp [Alive, before.mem_iff, or_and_right, exists_or]
  have hafter : Alive sources' c ↔ c ∈ made ∨ ∃ source ∈ rest, c ∈ source.labels := by
    simp [Alive, after.mem_iff]
  rw [hbefore, hafter, read, or_assoc]

theorem not_alive (move : Move output next sources step sources')
    (hc : c ∈ step.action.summed) : ¬Alive sources' c := by
  obtain ⟨-, after, -, relabels, free, -⟩ := move
  rintro ⟨source, hm, hs⟩
  rcases List.mem_cons.1 (after.mem_iff.1 hm) with rfl | hm
  · exact relabels.notMem_made hc hs
  · exact (free c hc).2 source hm hs

theorem notMem_output (move : Move output next sources step sources')
    (hc : c ∈ step.action.summed) : c ∉ output := by
  obtain ⟨-, -, -, -, free, -⟩ := move
  exact (free c hc).1

theorem nodup_summed (move : Move output next sources step sources') :
    step.action.summed.Nodup := by
  obtain ⟨-, -, -, relabels, -, -⟩ := move
  exact relabels.nodup_summed

theorem nodup_labels (move : Move output next sources step sources')
    (h : ∀ source ∈ sources, source.labels.Nodup) : ∀ source ∈ sources', source.labels.Nodup := by
  obtain ⟨before, after, -, relabels, -, -⟩ := move
  intro source hm
  rcases List.mem_cons.1 (after.mem_iff.1 hm) with rfl | hm
  · exact relabels.nodup_made
  · exact h source (before.mem_iff.2 (List.mem_append_right _ hm))

theorem result_mem (move : Move output next sources step sources') :
    step.result = next ∧ ⟨step.result, step.output⟩ ∈ sources' := by
  obtain ⟨-, after, -, -, -, -⟩ := move
  exact ⟨rfl, after.mem_iff.2 List.mem_cons_self⟩

theorem shared (move : Move output next sources step sources') (h : Shared output sources) :
    Shared output sources' := by
  obtain @⟨_, old, rest, action, made, before, after, -, relabels, free, needed⟩ := move
  intro c hc alone
  have count := h c hc
  rw [before.countP_eq, List.countP_append] at count
  rw [after.countP_eq, List.countP_cons] at alone
  by_cases hm : c ∈ made
  · -- the new tensor alone carries `c`, so one of those read did
    have none : rest.countP (·.labels.contains c) = 0 := by simpa [hm] using alone
    have := needed c hm hc (countP_contains_eq_zero.1 none)
    omega
  · have one : rest.countP (·.labels.contains c) = 1 := by simpa [hm] using alone
    -- none of the tensors read carries `c`, as it is neither left nor summed
    have none : old.countP (·.labels.contains c) = 0 := by
      refine countP_contains_eq_zero.2 fun source hs hcs => ?_
      have read : ∃ labels ∈ old.map (·.labels), c ∈ labels :=
        ⟨source.labels, List.mem_map_of_mem hs, hcs⟩
      have summed := (relabels.mem_read_iff.1 read).resolve_right hm
      have := countP_contains_eq_zero.2 (free c summed).2
      omega
    omega

end Move

namespace Moves

variable {output : Labels} {next : Nat} {sources sources' : List Source} {steps : List Step}
  {c : Label}

theorem nodup_labels (moves : Moves output next sources steps sources')
    (h : ∀ source ∈ sources, source.labels.Nodup) : ∀ source ∈ sources', source.labels.Nodup := by
  induction moves with
  | nil => exact h
  | cons move moves ih => exact ih (move.nodup_labels h)

theorem shared (moves : Moves output next sources steps sources') (h : Shared output sources) :
    Shared output sources' := by
  induction moves with
  | nil => exact h
  | cons move moves ih => exact ih (move.shared h)

theorem eq_of_nil (moves : Moves output next sources [] sources') : sources' = sources := by
  cases moves
  rfl

theorem result_mem (moves : Moves output next sources steps sources') {step : Step}
    (h : steps.getLast? = some step) :
    step.result + 1 = next + steps.length ∧ ⟨step.result, step.output⟩ ∈ sources' := by
  induction moves with
  | nil => cases h
  | @cons next _ sources' _ first steps move moves ih =>
    cases steps with
    | nil =>
      cases moves
      obtain rfl : first = step := by simpa using h
      exact ⟨by simp [move.result_mem.1], move.result_mem.2⟩
    | cons second steps =>
      obtain ⟨number, mem⟩ := ih (by simpa using h)
      exact ⟨by simp only [List.length_cons] at number ⊢; omega, mem⟩

theorem alive (moves : Moves output next sources steps sources') (h : Alive sources' c) :
    Alive sources c := by
  induction moves with
  | nil => exact h
  | cons move moves ih => exact move.alive_iff.2 (.inr (ih h))

theorem alive_output (moves : Moves output next sources steps sources') (hc : c ∈ output)
    (h : Alive sources c) : Alive sources' c := by
  induction moves with
  | nil => exact h
  | cons move moves ih =>
    exact ih ((move.alive_iff.1 h).resolve_left fun hs => move.notMem_output hs hc)

/-- Steps sum each label once that gets lost, and no other one. -/
theorem count_summed (moves : Moves output next sources steps sources') :
    (steps.flatMap (·.action.summed)).count c =
      if Alive sources c ∧ ¬Alive sources' c then 1 else 0 := by
  induction moves with
  | nil => simp
  | cons move moves ih =>
    rename_i step _
    rw [List.flatMap_cons, List.count_append, ih, move.nodup_summed.count]
    simp only [move.alive_iff]
    by_cases hs : c ∈ step.action.summed
    · have gone := move.not_alive hs
      simp [hs, gone, mt moves.alive gone]
    · simp [hs]

end Moves

end Einsum
