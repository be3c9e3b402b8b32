import Einsum.Proofs.Product

/-! What labelled tensors mean together.
The tensors of an expression denote a function of the output labels: the product of all
entries, summed over every label that the output lacks. Replacing some of the tensors by one
that has their product as its entries, less labels that nothing else needs, keeps it. -/

namespace Einsum

structure Factor (α : Type) where
  labels : Labels
  tensor : Tensor α

namespace Factor

variable {α : Type}

def Fits (size : Label → Nat) (factor : Factor α) : Prop :=
  factor.tensor.shape = factor.labels.map size

def entry [Zero α] (factor : Factor α) : Assignment Label → α := factor.tensor.entry factor.labels

theorem entry_update [Zero α] {factor : Factor α} {c : Label} (h : c ∉ factor.labels)
    (x : Assignment Label) (i : Nat) : factor.entry (Function.update x c i) = factor.entry x := by
  have same : factor.labels.map (Function.update x c i) = factor.labels.map x :=
    List.map_congr_left fun d hd => Function.update_of_ne (ne_of_mem_of_not_mem hd h) i x
  rw [entry, Tensor.entry, Tensor.entry, same]

end Factor

namespace Labels

theorem pairwise_insertAscending {labels : Labels} (h : labels.Pairwise (· < ·)) (c : Label) :
    (insertAscending c labels).Pairwise (· < ·) := by
  induction labels with
  | nil => exact List.pairwise_singleton _ c
  | cons d labels ih =>
    obtain ⟨hd, h⟩ := List.pairwise_cons.1 h
    rw [insertAscending]
    split
    · rename_i hlt
      refine List.pairwise_cons.2 ⟨fun e he => ?_, List.pairwise_cons.2 ⟨hd, h⟩⟩
      rcases List.mem_cons.1 he with rfl | he
      · exact hlt
      · exact Char.lt_trans hlt (hd e he)
    · split
      · exact List.pairwise_cons.2 ⟨hd, h⟩
      · rename_i hnlt hne
        refine List.pairwise_cons.2 ⟨fun e he => ?_, ih h⟩
        rcases mem_insertAscending.1 he with rfl | he
        · exact Char.not_le.1 fun hle => hne (Char.le_antisymm hle (Char.not_lt.1 hnlt))
        · exact hd e he

theorem pairwise_ascending (labels : Labels) : (ascending labels).Pairwise (· < ·) := by
  induction labels with
  | nil => exact List.Pairwise.nil
  | cons c labels ih => exact pairwise_insertAscending ih c

theorem nodup_ascending (labels : Labels) : (ascending labels).Nodup :=
  (pairwise_ascending labels).imp Char.ne_of_lt

def outside (output : Labels) (tensors : List Labels) : Labels :=
  (ascending tensors.flatten).filter fun c => !output.contains c

theorem mem_outside {output : Labels} {tensors : List Labels} {c : Label} :
    c ∈ outside output tensors ↔ (∃ labels ∈ tensors, c ∈ labels) ∧ c ∉ output := by
  simp [outside, mem_ascending]

theorem nodup_outside (output : Labels) (tensors : List Labels) : (outside output tensors).Nodup :=
  (nodup_ascending _).filter _

end Labels

theorem mem_outside_factors {α : Type} {output : Labels} {factors : List (Factor α)} {c : Label} :
    c ∈ Labels.outside output (factors.map (·.labels)) ↔
      (∃ factor ∈ factors, c ∈ factor.labels) ∧ c ∉ output := by
  simp [Labels.mem_outside]

/-- The product of the entries of all factors, summed over every label that the output
lacks. -/
def sumOfProducts {α : Type} [CommSemiring α] (size : Label → Nat) (output : Labels)
    (factors : List (Factor α)) : Assignment Label → α :=
  marginal size (Labels.outside output (factors.map (·.labels))) fun x =>
    (factors.map (·.entry x)).prod

/-- A tensor with the labels of the output is all that is meant. -/
theorem sumOfProducts_singleton {α : Type} [CommSemiring α] (size : Label → Nat)
    (factor : Factor α) : sumOfProducts size factor.labels [factor] = factor.entry := by
  have none : Labels.outside factor.labels ([factor].map (·.labels)) = [] := by
    refine List.eq_nil_iff_forall_not_mem.2 fun c hc => ?_
    obtain ⟨⟨labels, hm, hl⟩, hc⟩ := Labels.mem_outside.1 hc
    obtain rfl := List.mem_singleton.1 hm
    exact hc hl
  funext x
  rw [sumOfProducts, none, marginal, List.map_singleton, List.prod_singleton]

section Replace

variable {α : Type} {size : Label → Nat} {output summed : Labels}
  {factors factors' old rest : List (Factor α)} {new : Factor α}
  (before : factors.Perm (old ++ rest)) (after : factors'.Perm (new :: rest))
  (distinct : summed.Nodup)
  (labels : ∀ c, (∃ factor ∈ old, c ∈ factor.labels) ↔ c ∈ summed ∨ c ∈ new.labels)
  (free : ∀ c ∈ summed, c ∉ new.labels ∧ c ∉ output ∧ ∀ factor ∈ rest, c ∉ factor.labels)

include before after distinct labels free

/-- One factor in place of some others loses the labels that go and no other ones. -/
theorem outside_replace :
    (Labels.outside output (factors.map (·.labels))).Perm
      (Labels.outside output (factors'.map (·.labels)) ++ summed) := by
  have hbefore (c : Label) : (∃ factor ∈ factors, c ∈ factor.labels) ↔
      (∃ factor ∈ old, c ∈ factor.labels) ∨ ∃ factor ∈ rest, c ∈ factor.labels := by
    simp [before.mem_iff, or_and_right, exists_or]
  have hafter (c : Label) : (∃ factor ∈ factors', c ∈ factor.labels) ↔
      c ∈ new.labels ∨ ∃ factor ∈ rest, c ∈ factor.labels := by
    simp [after.mem_iff]
  have hrest (c : Label) (hc : c ∈ summed) : ¬∃ factor ∈ rest, c ∈ factor.labels := by
    rintro ⟨factor, hm, hc'⟩
    exact (free c hc).2.2 factor hm hc'
  have separate : (Labels.outside output (factors'.map (·.labels)) ++ summed).Nodup := by
    refine List.nodup_append.2 ⟨Labels.nodup_outside _ _, distinct, ?_⟩
    rintro c hc _ hs rfl
    rw [mem_outside_factors, hafter] at hc
    exact hc.1.elim (free c hs).1 (hrest c hs)
  refine (List.perm_ext_iff_of_nodup (Labels.nodup_outside _ _) separate).2 fun c => ?_
  rw [List.mem_append, mem_outside_factors, mem_outside_factors, hbefore, hafter, labels]
  by_cases hs : c ∈ summed
  · simp [hs, (free c hs).2.1]
  · simp [hs]

/-- One factor in place of some others, with their product as its entries, summed over
labels that neither the output nor another factor has. -/
theorem sumOfProducts_replace [CommSemiring α]
    (entry : new.entry = marginal size summed fun x => (old.map (·.entry x)).prod) :
    sumOfProducts size output factors = sumOfProducts size output factors' := by
  have order := outside_replace before after distinct labels free
  have product : (fun x => (factors.map (·.entry x)).prod) = fun x =>
      (old.map (·.entry x)).prod * (rest.map (·.entry x)).prod := by
    funext x
    rw [(before.map _).prod_eq, List.map_append, List.prod_append]
  have ignores : ∀ c ∈ summed, ∀ x i, (rest.map (·.entry (Function.update x c i))).prod =
      (rest.map (·.entry x)).prod := by
    intro c hc x i
    congr 1
    exact List.map_congr_left fun factor hm => Factor.entry_update ((free c hc).2.2 factor hm) x i
  calc sumOfProducts size output factors
      = marginal size (Labels.outside output (factors'.map (·.labels)))
          (marginal size summed fun x =>
            (old.map (·.entry x)).prod * (rest.map (·.entry x)).prod) := by
        rw [sumOfProducts, product, marginal_perm order, marginal_append]
    _ = marginal size (Labels.outside output (factors'.map (·.labels)))
          (fun x => new.entry x * (rest.map (·.entry x)).prod) := by
        rw [marginal_mul ignores, ← entry]
    _ = sumOfProducts size output factors' := by
        rw [sumOfProducts]
        congr 1
        funext x
        rw [(after.map _).prod_eq, List.map_cons, List.prod_cons]

end Replace

end Einsum
