import Einsum.Proofs.Estimates
import Einsum.Proofs.Subsets

/-! What the steps of a path cost together, by the trees that they build.
A tensor at hand carries the labels of its leaves that the output or a term outside them
needs, whatever the order of the contractions was. So the cost of a step depends on the two
trees that it joins only, and the cost of all steps on the tree that is left. -/

namespace Einsum

namespace Tree

/-- The leaves as a set. -/
def set : Tree → Nat
  | .term id => 2 ^ id
  | .join left right => left.set ||| right.set

theorem testBit_set {tree : Tree} {id : Nat} : tree.set.testBit id ↔ id ∈ tree.leaves := by
  induction tree with
  | term other => simp [set, leaves, Nat.testBit_two_pow, eq_comm]
  | join left right ihl ihr => simp [set, leaves, ihl, ihr]

theorem Covers.set_eq {tree : Tree} {set : Nat} (covers : tree.Covers set) : tree.set = set :=
  Nat.eq_of_testBit_eq fun id =>
    Bool.eq_iff_iff.2 (testBit_set.trans (covers.2 id))

theorem covers_set {tree : Tree} (nodup : tree.leaves.Nodup) : tree.Covers tree.set :=
  ⟨nodup, fun _ => testBit_set.symm⟩

end Tree

/-- What stays and what is summed are the labels of both sides. -/
theorem SizeTable.volume_split {table : SizeTable} {left right : Labels} {keep : Label → Bool}
    (leftNodup : left.Nodup) (rightNodup : right.Nodup) :
    table.volume (Pairing.split left right keep).result *
        table.volume (Pairing.split left right keep).summed =
      table.volume (Labels.ascending (left ++ right)) := by
  rw [← volume_append]
  refine volume_congr (List.nodup_append.2 ⟨Pairing.nodup_result_split leftNodup rightNodup,
    Pairing.nodup_summed_split leftNodup, ?_⟩) (Labels.nodup_ascending _) fun c => ?_
  · rintro c hc _ hs rfl
    rw [Pairing.mem_result_split] at hc
    rw [Pairing.mem_summed_split] at hs
    grind
  · rw [List.mem_append, Pairing.mem_result_split, Pairing.mem_summed_split,
      Labels.mem_ascending, List.mem_append]
    grind

namespace Network

variable {network : Network} {model : CostModel} {c : Label}

/-- The labels of a term; there is nothing beyond the terms. -/
def term (network : Network) (id : Nat) : Labels := network.terms[id]?.getD []

theorem mem_term {id : Nat} :
    c ∈ network.term id ↔ ∃ labels, network.terms[id]? = some labels ∧ c ∈ labels := by
  cases h : network.terms[id]? <;> simp [term, h]

theorem lt_of_mem_term {id : Nat} (h : c ∈ network.term id) : id < network.terms.length := by
  obtain ⟨labels, found, -⟩ := mem_term.1 h
  exact (List.getElem?_eq_some_iff.1 found).1

theorem mem_setLabels {set : Nat} : c ∈ network.setLabels set ↔
    (∃ id, set.testBit id ∧ c ∈ network.term id) ∧
      (c ∈ network.output ∨ ∃ id, ¬set.testBit id ∧ c ∈ network.term id) := by
  have part (p : Nat → Bool) :
      (∃ entry ∈ network.terms.zipIdx.filter fun entry => p entry.2, c ∈ entry.1) ↔
        ∃ id, p id = true ∧ c ∈ network.term id := by
    simp only [List.mem_filter, Prod.exists, List.mk_mem_zipIdx_iff_getElem?, mem_term]
    grind
  have inside := part set.testBit
  have outside := part fun id => !set.testBit id
  simp only [setLabels, List.partition_eq_filter_filter, Labels.mem_ascending, List.mem_filter,
    List.contains_iff_mem, List.mem_append, List.mem_flatMap]
  simpa using and_congr inside (or_congr Iff.rfl outside)

/-- The labels that the tensor of a tree carries. -/
def treeLabels (network : Network) (tree : Tree) : Labels := network.setLabels tree.set

theorem mem_treeLabels {tree : Tree} : c ∈ network.treeLabels tree ↔
    (∃ id ∈ tree.leaves, c ∈ network.term id) ∧
      (c ∈ network.output ∨ ∃ id, id ∉ tree.leaves ∧ c ∈ network.term id) := by
  simp only [treeLabels, mem_setLabels, Tree.testBit_set]

theorem nodup_treeLabels (network : Network) (tree : Tree) : (network.treeLabels tree).Nodup :=
  Labels.nodup_ascending _

/-- Operations and weighted entries of one contraction, counted exactly. -/
def meeting (network : Network) (model : CostModel) (left right result : Labels) : Nat :=
  let entries labels := (network.sizes.shape labels).prod
  entries (Labels.ascending (left ++ right)) * 2 +
    (entries left + entries right + entries result) * model.alpha.toNat

/-- The exact cost of a tree. -/
def work (network : Network) (model : CostModel) : Tree → Nat
  | .term _ => 0
  | .join left right => network.work model left + network.work model right +
      network.meeting model (network.treeLabels left) (network.treeLabels right)
        (network.treeLabels (.join left right))

/-- What it costs to join the tensors of two trees. -/
def joinCost (network : Network) (model : CostModel) (left right : Tree) : Cost :=
  model.contraction (network.sizes.volume (network.treeLabels left))
    (network.sizes.volume (network.treeLabels right))
    (network.sizes.volume (Labels.ascending (network.treeLabels left ++ network.treeLabels right)))
    (network.sizes.volume (network.treeLabels (.join left right)))

theorem total_joinCost (network : Network) (model : CostModel) (left right : Tree) :
    (network.joinCost model left right).total = .ofNat (network.meeting model
      (network.treeLabels left) (network.treeLabels right)
      (network.treeLabels (.join left right))) := by
  simp only [joinCost, SizeTable.volume_eq, CostModel.contraction_ofNat, Cost.clamped, meeting,
    Nat.mul_comm]

/-- Labels of a tensor that a tree makes, in some order. -/
structure Carries (network : Network) (labels : Labels) (tree : Tree) : Prop where
  nodup : labels.Nodup
  mem_iff : ∀ c, c ∈ labels ↔ c ∈ network.treeLabels tree

namespace Carries

variable {left right result labels : Labels} {tree l r : Tree} {keep : Label → Bool}

theorem volume_eq (carries : network.Carries labels tree) :
    network.sizes.volume labels = network.sizes.volume (network.treeLabels tree) :=
  SizeTable.volume_congr carries.nodup (network.nodup_treeLabels tree) carries.mem_iff

theorem volume_union (hl : network.Carries left l) (hr : network.Carries right r) :
    network.sizes.volume (Labels.ascending (left ++ right)) =
      network.sizes.volume (Labels.ascending (network.treeLabels l ++ network.treeLabels r)) := by
  refine SizeTable.volume_congr (Labels.nodup_ascending _) (Labels.nodup_ascending _) fun c => ?_
  simp only [Labels.mem_ascending, List.mem_append, hl.mem_iff, hr.mem_iff]

theorem contraction_eq (model : CostModel) (hl : network.Carries left l)
    (hr : network.Carries right r) (hj : network.Carries result (.join l r)) :
    model.contraction (network.sizes.volume left) (network.sizes.volume right)
      (network.sizes.volume (Labels.ascending (left ++ right))) (network.sizes.volume result) =
    network.joinCost model l r := by
  rw [hl.volume_union hr, hl.volume_eq, hr.volume_eq, hj.volume_eq, joinCost]

/-- Costs by the parts in which the labels fall apart are those by their union. -/
theorem pairwise_eq (model : CostModel) (hl : network.Carries left l)
    (hr : network.Carries right r)
    (hj : network.Carries (Pairing.split left right keep).result (.join l r)) :
    model.pairwise network.sizes left right (.split left right keep) =
      network.joinCost model l r := by
  rw [CostModel.pairwise, SizeTable.volume_split hl.nodup hr.nodup]
  exact hl.contraction_eq model hr hj

/-- Contraction keeps to the labels that the joined tree carries. -/
theorem join (hl : network.Carries left l) (hr : network.Carries right r)
    (disjoint : ∀ id ∈ l.leaves, id ∉ r.leaves)
    (kept : ∀ c ∈ left, keep c = true ↔ c ∈ network.output ∨
      ∃ id, id ∉ l.leaves ∧ id ∉ r.leaves ∧ c ∈ network.term id) :
    network.Carries (Pairing.split left right keep).result (.join l r) where
  nodup := Pairing.nodup_result_split hl.nodup hr.nodup
  mem_iff c := by
    have kept := kept c
    have left := hl.mem_iff c
    have right := hr.mem_iff c
    rw [mem_treeLabels] at left right
    rw [Pairing.mem_result_split, mem_treeLabels, Tree.leaves]
    simp only [List.mem_append, not_or]
    grind

end Carries

end Network

end Einsum
