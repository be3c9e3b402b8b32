import Einsum.Proofs.Moves
import Einsum.Proofs.Running

/-! The values of the tensors at hand.
While the tensors at hand have the shapes that their labels tell, a move finds all that it
reads, its action succeeds and what the tensors at hand denote stays the same. -/

namespace Einsum

/-- The tensors at hand with their values. -/
def factorsOf {α : Type} (values : List (Tensor α)) (sources : List Source) : List (Factor α) :=
  sources.filterMap fun source => values[source.id]?.map (Factor.mk source.labels)

/-- Each tensor at hand has a value of the shape that its labels tell. -/
def Held {α : Type} (size : Label → Nat) (values : List (Tensor α)) (sources : List Source) : Prop :=
  ∀ source ∈ sources, ∃ t, values[source.id]? = some t ∧ t.shape = source.labels.map size

namespace Held

variable {α : Type} {size : Label → Nat} {values : List (Tensor α)} {sources : List Source}

theorem fits (held : Held size values sources) :
    ∀ factor ∈ factorsOf values sources, factor.Fits size := by
  intro factor hm
  obtain ⟨source, hs, hf⟩ := List.mem_filterMap.1 hm
  obtain ⟨t, ht, shape⟩ := held source hs
  rw [ht, Option.map_some, Option.some.injEq] at hf
  rw [← hf]
  exact shape

theorem labels (held : Held size values sources) :
    (factorsOf values sources).map (·.labels) = sources.map (·.labels) := by
  induction sources with
  | nil => rfl
  | cons source sources ih =>
    obtain ⟨⟨t, ht, -⟩, held⟩ := List.forall_mem_cons.1 held
    have ih := ih held
    rw [factorsOf] at ih ⊢
    simp [ht, ih]

theorem reads (held : Held size values sources) :
    (sources.map (·.id)).mapM (fun id => values[id]?) =
      some ((factorsOf values sources).map (·.tensor)) := by
  induction sources with
  | nil => rfl
  | cons source sources ih =>
    obtain ⟨⟨t, ht, -⟩, held⟩ := List.forall_mem_cons.1 held
    have ih := ih held
    rw [factorsOf] at ih ⊢
    simp [ht, ih]

theorem append (held : Held size values sources) (value : Tensor α) :
    Held size (values ++ [value]) sources := by
  intro source hm
  obtain ⟨t, ht, shape⟩ := held source hm
  exact ⟨t, by rw [List.getElem?_append_left (List.getElem?_eq_some_iff.1 ht).1, ht], shape⟩

theorem factorsOf_append (held : Held size values sources) (value : Tensor α) :
    factorsOf (values ++ [value]) sources = factorsOf values sources := by
  refine List.filterMap_congr fun source hm => ?_
  obtain ⟨t, ht, -⟩ := held source hm
  rw [List.getElem?_append_left (List.getElem?_eq_some_iff.1 ht).1]

end Held

namespace Move

variable {α : Type} {size : Label → Nat} {output : Labels} {sources sources' : List Source}
  {step : Step} {values args : List (Tensor α)} {value : Tensor α}
  (move : Move output values.length sources step sources') (held : Held size values sources)

include move held

theorem exists_value [Zero α] [Add α] [Mul α]
    (addressable : step.action.isContraction → isAddressable (step.output.map size)) :
    ∃ args value, step.action.inputs.mapM (fun id => values[id]?) = some args ∧
      step.action.apply (Tensor.backend α) args = .ok value := by
  obtain @⟨_, old, rest, action, made, before, -, inputs, relabels, -, -⟩ := move
  have heldOld : Held size values old :=
    fun source hm => held source (before.mem_iff.2 (List.mem_append_left _ hm))
  obtain ⟨value, apply, -⟩ :=
    (heldOld.labels ▸ relabels).apply_spec (α := α) heldOld.fits addressable
  exact ⟨_, value, inputs ▸ heldOld.reads, apply⟩

section Value

variable (reads : step.action.inputs.mapM (fun id => values[id]?) = some args)

include reads

theorem held_append [Zero α] [Add α] [Mul α]
    (apply : step.action.apply (Tensor.backend α) args = .ok value) :
    Held size (values ++ [value]) sources' := by
  obtain @⟨_, old, rest, action, made, before, after, inputs, relabels, -, -⟩ := move
  have heldOld : Held size values old :=
    fun source hm => held source (before.mem_iff.2 (List.mem_append_left _ hm))
  obtain rfl := Option.some.inj (reads.symm.trans (inputs ▸ heldOld.reads))
  intro source hm
  rcases List.mem_cons.1 (after.mem_iff.1 hm) with rfl | hm
  · have shape := (heldOld.labels ▸ relabels).shape_of_apply heldOld.fits apply
    exact ⟨value, by simp, shape⟩
  · exact held.append value source (before.mem_iff.2 (List.mem_append_right _ hm))

theorem entry [CommSemiring α] (apply : step.action.apply (Tensor.backend α) args = .ok value) :
    sumOfProducts size output (factorsOf values sources) =
      sumOfProducts size output (factorsOf (values ++ [value]) sources') := by
  obtain @⟨_, old, rest, action, made, before, after, inputs, relabels, free, -⟩ := move
  have heldOld : Held size values old :=
    fun source hm => held source (before.mem_iff.2 (List.mem_append_left _ hm))
  have heldRest : Held size values rest :=
    fun source hm => held source (before.mem_iff.2 (List.mem_append_right _ hm))
  obtain rfl := Option.some.inj (reads.symm.trans (inputs ▸ heldOld.reads))
  have relabels := heldOld.labels ▸ relabels
  have hbefore : (factorsOf values sources).Perm (factorsOf values old ++ factorsOf values rest) := by
    rw [factorsOf, factorsOf, factorsOf, ← List.filterMap_append]
    exact before.filterMap _
  have hafter : (factorsOf (values ++ [value]) sources').Perm
      (⟨made, value⟩ :: factorsOf values rest) := by
    rw [← heldRest.factorsOf_append value]
    refine (after.filterMap _).trans (.of_eq ?_)
    simp [factorsOf]
  refine sumOfProducts_replace hbefore hafter relabels.nodup_summed (fun c => ?_)
    (fun c hc => ⟨relabels.notMem_made hc, (free c hc).1, fun factor hm => ?_⟩)
    (relabels.entry_of_apply heldOld.fits apply)
  · simpa using relabels.mem_read_iff (c := c)
  · have labels : factor.labels ∈ rest.map (·.labels) :=
      heldRest.labels ▸ List.mem_map_of_mem hm
    obtain ⟨source, hs, hl⟩ := List.mem_map.1 labels
    exact hl ▸ (free c hc).2 source hs

end Value

end Move

namespace Moves

variable {α : Type} {size : Label → Nat} {output : Labels} {next : Nat}
  {sources sources' : List Source} {steps : List Step} {values values' : List (Tensor α)}

theorem exists_traces [Zero α] [Add α] [Mul α] (moves : Moves output next sources steps sources')
    (length : values.length = next) (held : Held size values sources)
    (addressable : ∀ step ∈ steps, step.action.isContraction →
      isAddressable (step.output.map size)) :
    ∃ values', Traces (Tensor.backend α) values steps values' := by
  induction moves generalizing values with
  | nil => exact ⟨values, .nil⟩
  | cons move moves ih =>
    obtain ⟨first, addressable⟩ := List.forall_mem_cons.1 addressable
    subst length
    obtain ⟨args, value, reads, apply⟩ := move.exists_value held first
    obtain ⟨values', traces⟩ := ih (by simp) (move.held_append held reads apply) addressable
    exact ⟨values', .cons reads apply traces⟩

theorem held [Zero α] [Add α] [Mul α] (moves : Moves output next sources steps sources')
    (length : values.length = next) (held : Held size values sources)
    (traces : Traces (Tensor.backend α) values steps values') : Held size values' sources' := by
  induction moves generalizing values with
  | nil => cases traces; exact held
  | cons move moves ih =>
    obtain _ | ⟨reads, apply, traces⟩ := traces
    subst length
    exact ih (by simp) (move.held_append held reads apply) traces

/-- The tensors at hand denote the same before and after. -/
theorem sumOfProducts_eq [CommSemiring α] (moves : Moves output next sources steps sources')
    (length : values.length = next) (held : Held size values sources)
    (traces : Traces (Tensor.backend α) values steps values') :
    sumOfProducts size output (factorsOf values sources) =
      sumOfProducts size output (factorsOf values' sources') := by
  induction moves generalizing values with
  | nil => cases traces; rfl
  | cons move moves ih =>
    obtain _ | ⟨reads, apply, traces⟩ := traces
    subst length
    rw [move.entry held reads apply]
    exact ih (by simp) (move.held_append held reads apply) traces

end Moves

end Einsum
