import Einsum.Proofs.Estimates
import Einsum.Proofs.Fitting

/-! Equations under other names for their labels.
New names differ where the old ones do, but need not be in the same order. So places,
diagonals and sizes stay as they are, while a list that ascends has to be put in order
again. Volumes do not depend on the order, clamped or not. -/

namespace Einsum

def AxisGroup.rename (r : Label → Label) (group : AxisGroup) : AxisGroup := ⟨r group.label, group.axes⟩

namespace SizeTable

def rename (r : Label → Label) (table : SizeTable) : SizeTable :=
  ⟨table.entries.map fun (c, size) => (r c, size)⟩

end SizeTable

def Equation.rename (r : Label → Label) (equation : Equation) : Equation :=
  ⟨equation.inputs.map (·.map r), equation.output.map (·.map r)⟩

def SizedEquation.rename (r : Label → Label) (sized : SizedEquation) : SizedEquation :=
  ⟨sized.equation.rename r, sized.shapes, sized.sizes.rename r, sized.output.map r⟩

namespace Labels

/-- The new names of some labels, ascending. -/
def renameAscending (r : Label → Label) (labels : Labels) : Labels :=
  (labels.map r).mergeSort (· ≤ ·)

theorem renameAscending_perm (r : Label → Label) (labels : Labels) :
    (renameAscending r labels).Perm (labels.map r) := List.mergeSort_perm _ _

theorem pairwise_renameAscending (r : Label → Label) (labels : Labels) :
    (renameAscending r labels).Pairwise (· ≤ ·) := by
  have sorted := @List.pairwise_mergeSort Label (fun c d => decide (c ≤ d))
    (fun c d e => by simpa using Char.le_trans) (fun c d => by simpa using Char.le_total c d)
    (labels.map r)
  exact sorted.imp of_decide_eq_true

theorem filter_map_of_eq {r : Label → Label} {p q : Label → Bool} (same : ∀ c, q (r c) = p c)
    (labels : Labels) : (labels.map r).filter q = (labels.filter p).map r := by
  rw [List.filter_map]
  congr 2
  exact funext same

variable {r : Label → Label} (inj : Function.Injective r)

include inj

theorem contains_map (labels : Labels) (c : Label) :
    (labels.map r).contains (r c) = labels.contains c := by
  rw [Bool.eq_iff_iff, List.contains_iff_mem, List.contains_iff_mem, List.mem_map_of_injective inj]

theorem idxOf?_map (labels : Labels) (c : Label) : (labels.map r).idxOf? (r c) = labels.idxOf? c := by
  induction labels with
  | nil => rfl
  | cons d labels ih => rw [List.map_cons, List.idxOf?_cons, List.idxOf?_cons, inj.beq_eq, ih]

theorem distinct_map (labels : Labels) : distinct (labels.map r) = (distinct labels).map r := by
  rw [distinct, distinct]
  induction labels using List.reverseRecOn with
  | nil => rfl
  | append_singleton labels c ih =>
    rw [List.map_append, List.map_singleton, eraseDups_append_singleton, eraseDups_append_singleton,
      if_congr (List.mem_map_of_injective inj) rfl rfl, ih]
    split
    · rfl
    · rw [List.map_append, List.map_singleton]

theorem axesOf_map (labels : Labels) (c : Label) : axesOf (labels.map r) (r c) = labels.axesOf c := by
  rw [axesOf, axesOf, List.zipIdx_map, List.filterMap_map]
  congr 1
  funext ⟨d, axis⟩
  exact if_congr inj.eq_iff rfl rfl

theorem diagonals_map (labels : Labels) :
    diagonals (labels.map r) = labels.diagonals.map (AxisGroup.rename r) := by
  rw [diagonals, diagonals, distinct_map inj, List.filterMap_map, List.map_filterMap]
  congr 1
  funext c
  simp only [Function.comp_apply, axesOf_map inj]
  split <;> rfl

/-- Both sides ascend and have the same labels. -/
theorem ascending_map (labels : Labels) :
    ascending (labels.map r) = renameAscending r (ascending labels) := by
  have perm : (ascending (labels.map r)).Perm ((ascending labels).map r) := by
    refine (List.perm_ext_iff_of_nodup (nodup_ascending _)
      ((nodup_ascending labels).map inj)).2 fun c => ?_
    simp only [mem_ascending, List.mem_map]
  have sorted : (ascending (labels.map r)).Pairwise (· ≤ ·) :=
    (pairwise_ascending _).imp fun lt => Char.not_lt.1 (Char.lt_asymm lt)
  exact (perm.trans (renameAscending_perm r _).symm).eq_of_pairwise
    (fun _ _ _ _ => Char.le_antisymm) sorted (pairwise_renameAscending r _)

end Labels

namespace SizeTable

variable {r : Label → Label} (inj : Function.Injective r)

include inj

theorem get?_rename (table : SizeTable) (c : Label) : (table.rename r).get? (r c) = table.get? c := by
  obtain ⟨entries⟩ := table
  rw [get?, get?, rename]
  induction entries with
  | nil => rfl
  | cons entry entries ih =>
    rw [List.map_cons, List.lookup_cons, List.lookup_cons, inj.beq_eq, ih]

theorem size_rename (table : SizeTable) (c : Label) : (table.rename r).size (r c) = table.size c := by
  rw [size, size, get?_rename inj]

theorem shape_rename (table : SizeTable) (labels : Labels) :
    (table.rename r).shape (labels.map r) = table.shape labels := by
  rw [shape, shape, List.map_map]
  exact List.map_congr_left fun c _ => size_rename inj table c

theorem volume_rename (table : SizeTable) (labels : Labels) :
    (table.rename r).volume (labels.map r) = table.volume labels := by
  rw [volume_eq, volume_eq, shape_rename inj]

theorem volume_renameAscending (table : SizeTable) (labels : Labels) :
    (table.rename r).volume (labels.renameAscending r) = table.volume labels := by
  have perm := (Labels.renameAscending_perm r labels).map (table.rename r).size
  rw [← volume_rename inj table labels, volume_eq, volume_eq, shape, shape, perm.prod_eq]

theorem bind_rename {table table' : SizeTable} {c : Label} {size : Nat}
    (h : table.bind c size = .ok table') :
    (table.rename r).bind (r c) size = .ok (table'.rename r) := by
  rw [bind, get?_rename inj]
  cases hc : table.get? c with
  | none =>
    rw [bind_of_get?_eq_none hc] at h
    rw [← Except.ok.inj h]
    simp [rename]
  | some expected =>
    rw [bind_of_get?_eq_some hc] at h
    split at h
    · rename_i same
      rw [← Except.ok.inj h]
      exact if_pos same
    · cases h

end SizeTable

namespace Equation

variable {r : Label → Label} (inj : Function.Injective r)

include inj

theorem count_rename (equation : Equation) (c : Label) :
    (equation.rename r).count (r c) = equation.count c := by
  rw [count, count, places, places, rename, List.zipIdx_map, List.flatMap_map]
  simp only [Prod.map, Labels.axesOf_map inj, id]

theorem bindAxes_rename {table table' : SizeTable} {labels : Labels} {shape : List Nat}
    (h : bindAxes table labels shape = .ok table') :
    bindAxes (table.rename r) (labels.map r) shape = .ok (table'.rename r) := by
  induction labels generalizing shape table with
  | nil =>
    rw [← Except.ok.inj h]
    rfl
  | cons c labels ih =>
    cases shape with
    | nil =>
      rw [← Except.ok.inj h]
      rfl
    | cons size shape =>
      obtain ⟨bound, hb, h⟩ := bind_eq_ok_iff.1 h
      exact bind_eq_ok_iff.2 ⟨bound.rename r, SizeTable.bind_rename inj hb, ih h⟩

theorem bindOperands_rename {table table' : SizeTable} {operand : Nat} {inputs : List Labels}
    {shapes : List (List Nat)} (h : bindOperands table operand inputs shapes = .ok table') :
    bindOperands (table.rename r) operand (inputs.map (·.map r)) shapes = .ok (table'.rename r) := by
  induction inputs generalizing shapes table operand with
  | nil =>
    rw [← Except.ok.inj h]
    rfl
  | cons labels inputs ih =>
    cases shapes with
    | nil =>
      rw [← Except.ok.inj h]
      rfl
    | cons shape shapes =>
      obtain ⟨_, rank, h⟩ := bind_eq_ok_iff.1 h
      obtain ⟨bound, hb, h⟩ := bind_eq_ok_iff.1 h
      have length := length_of_requireRank rank
      have rank' : requireRank operand (labels.map r) shape = .ok () := by
        rw [requireRank, List.length_map, if_neg (by omega), if_neg (by omega)]
      exact bind_eq_ok_iff.2 ⟨(), rank', bind_eq_ok_iff.2
        ⟨bound.rename r, bindAxes_rename inj hb, ih h⟩⟩

theorem requireOutput_rename {equation : Equation} {seen output : Labels}
    (h : equation.requireOutput seen output = .ok ()) :
    (equation.rename r).requireOutput (seen.map r) (output.map r) = .ok () := by
  induction output generalizing seen with
  | nil => rfl
  | cons c output ih =>
    rw [requireOutput] at h
    split at h
    · cases h
    · split at h
      · cases h
      · rename_i present new
        rw [List.map_cons, requireOutput, count_rename inj, if_neg present,
          Labels.contains_map inj, if_neg new]
        exact ih h

/-- An output that is given keeps its order; one that is inferred ascends again. -/
theorem fit_rename {equation : Equation} {output : Labels} {shapes : List (List Nat)}
    {sized : SizedEquation} (explicit : equation.output = some output)
    (h : equation.fit shapes = .ok sized) :
    (equation.rename r).fit shapes = .ok (sized.rename r) := by
  rw [fit, explicit] at h
  split at h
  · cases h
  · rename_i length
    obtain ⟨sizes, hs, h⟩ := bind_eq_ok_iff.1 h
    obtain ⟨⟨⟩, ho, h⟩ := bind_eq_ok_iff.1 h
    have explicit' : (equation.rename r).output = some (output.map r) := by rw [rename, explicit]; rfl
    have length' : ¬shapes.length ≠ (equation.rename r).inputs.length := by
      rwa [rename, List.length_map]
    rw [fit, if_neg length', explicit', ← Except.ok.inj h]
    refine bind_eq_ok_iff.2 ⟨sizes.rename r, bindOperands_rename inj hs, bind_eq_ok_iff.2
      ⟨(), requireOutput_rename inj ho, ?_⟩⟩
    rw [SizedEquation.rename, outputLabels, outputLabels, explicit, explicit']
    rfl

end Equation

namespace SizedEquation

theorem outputShape_rename {r : Label → Label} (inj : Function.Injective r) (sized : SizedEquation) :
    (sized.rename r).outputShape = sized.outputShape :=
  SizeTable.shape_rename inj sized.sizes sized.output

end SizedEquation

end Einsum
