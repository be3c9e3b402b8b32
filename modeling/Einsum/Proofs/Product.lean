import Einsum.Proofs.Rearrange
import Einsum.Proofs.Reduction
import Einsum.Tensor.Contract

/-! Contraction by the labels of the axes.
The place of an entry in row-major order is a mixed-radix number, so a group of neighbouring
axes may be read as one axis. The batched matrix product of the three blocks of either side
then has as its entries the products of both sides, summed over the inner labels. -/

namespace Einsum

variable {ι α : Type}

/-- The place under an assignment of an entry whose axes carry the labels. -/
def placeOf (size : ι → Nat) (x : Assignment ι) : List ι → Nat
  | [] => 0
  | c :: labels => x c * capacity (labels.map size) + placeOf size x labels

section PlaceOf

variable {size : ι → Nat} {x : Assignment ι}

theorem offset?_map {labels : List ι} (hx : x.Within size labels) :
    offset? (labels.map size) (labels.map x) = some (placeOf size x labels) := by
  induction labels with
  | nil => rfl
  | cons c labels ih =>
    obtain ⟨hc, hx⟩ := List.forall_mem_cons.1 hx
    rw [List.map_cons, List.map_cons, offset?, if_pos hc, ih hx]
    rfl

theorem placeOf_lt {labels : List ι} (hx : x.Within size labels) :
    placeOf size x labels < capacity (labels.map size) :=
  (unravel_of_offset? (offset?_map hx)).1

theorem placeOf_append (first second : List ι) :
    placeOf size x (first ++ second) =
      placeOf size x first * capacity (second.map size) + placeOf size x second := by
  induction first with
  | nil => simp [placeOf]
  | cons c first ih =>
    simp only [List.cons_append, placeOf, ih, List.map_append, capacity_append]
    rw [Nat.add_mul, Nat.mul_assoc, Nat.add_assoc]

theorem placeOf_congr {y : Assignment ι} {labels : List ι} (h : ∀ c ∈ labels, x c = y c) :
    placeOf size x labels = placeOf size y labels := by
  induction labels with
  | nil => rfl
  | cons c labels ih =>
    obtain ⟨hc, h⟩ := List.forall_mem_cons.1 h
    rw [placeOf, placeOf, hc, ih h]

theorem isSome_offset?_three {l m n i j k : Nat} :
    (offset? [l, m, n] [i, j, k]).isSome ↔ i < l ∧ j < m ∧ k < n := by
  by_cases hi : i < l <;> by_cases hj : j < m <;> by_cases hk : k < n <;>
    simp [offset?, hi, hj, hk]

theorem offset?_block {first second third : List ι} (hx : x.Within size (first ++ second ++ third)) :
    offset? [capacity (first.map size), capacity (second.map size), capacity (third.map size)]
        [placeOf size x first, placeOf size x second, placeOf size x third] =
      offset? ((first ++ second ++ third).map size) ((first ++ second ++ third).map x) := by
  have within {labels : List ι} (h : labels ⊆ first ++ second ++ third) :
      placeOf size x labels < capacity (labels.map size) := placeOf_lt fun c hc => hx c (h hc)
  rw [offset?_map hx, placeOf_append, placeOf_append]
  simp only [offset?, if_pos (within (fun c hc => by simp [hc] : first ⊆ _)),
    if_pos (within (fun c hc => by simp [hc] : second ⊆ _)),
    if_pos (within (fun c hc => by simp [hc] : third ⊆ _)), Option.map_some, capacity_cons,
    capacity_nil, Nat.mul_one, Nat.add_zero]
  rw [Nat.add_mul, Nat.mul_assoc, Nat.add_assoc]

variable [DecidableEq ι]

/-- The assignment that gives the labels the index at a place. -/
theorem within_set_unravel {labels : List ι} (nodup : labels.Nodup) {place : Nat}
    (h : place < capacity (labels.map size)) :
    (x.set labels (unravel (labels.map size) place)).Within size labels ∧
      placeOf size (x.set labels (unravel (labels.map size) place)) labels = place := by
  have offset := offset?_unravel h
  have map : labels.map (x.set labels (unravel (labels.map size) place)) =
      unravel (labels.map size) place :=
    Assignment.map_set nodup
      ((length_of_isSome_offset? (by rw [offset]; rfl)).trans (List.length_map size))
  have within : (x.set labels (unravel (labels.map size) place)).Within size labels :=
    isSome_offset?_map_iff.1 (by rw [map, offset]; rfl)
  refine ⟨within, ?_⟩
  have := offset?_map within
  rw [map, offset] at this
  exact (Option.some.inj this).symm

end PlaceOf

namespace Tensor

theorem reshape?_eq_some (t : Tensor α) {shape : List Nat} (h : capacity shape = capacity t.shape) :
    ∃ u, t.reshape? shape = some u ∧ u.shape = shape ∧ u.data = t.data :=
  ⟨⟨shape, t.data, by rw [t.size_eq, h]⟩, by simp [reshape?, ofData?, t.size_eq, h], rfl, rfl⟩

theorem get?_eq_of_offset? {t u : Tensor α} {i j : List Nat} (data : u.data = t.data)
    (h : offset? u.shape i = offset? t.shape j) : u.get? i = t.get? j := by
  rw [get?, get?, h, data]

/-- Reading three groups of axes as three axes. -/
theorem get?_block {t u : Tensor α} {size : ι → Nat} {first second third : List ι}
    (shape : t.shape = (first ++ second ++ third).map size) (data : u.data = t.data)
    (block : u.shape =
      [capacity (first.map size), capacity (second.map size), capacity (third.map size)])
    {x : Assignment ι} (hx : x.Within size (first ++ second ++ third)) :
    u.get? [placeOf size x first, placeOf size x second, placeOf size x third] =
      t.get? ((first ++ second ++ third).map x) :=
  get?_eq_of_offset? data (by rw [block, shape, offset?_block hx])

end Tensor

def ContractionSizes.ofLabels (size : ι → Nat) (batch rows inner columns : List ι) :
    ContractionSizes :=
  ⟨batch.map size, rows.map size, inner.map size, columns.map size⟩

theorem ContractionSizes.result_ofLabels (size : ι → Nat) (batch rows inner columns : List ι) :
    (ofLabels size batch rows inner columns).result = (batch ++ rows ++ columns).map size := by
  simp [ofLabels, result]

/-- The labels of the axes that take part in a contraction: batch axes and inner axes carry
the same labels on both sides, and the free axes carry the labels of their side alone. -/
structure AxesNamed (axes : ContractionAxes) (left right batch rows inner columns : List ι) :
    Prop where
  leftBatch : Names left (axes.batch.map (·.1)) batch
  rightBatch : Names right (axes.batch.map (·.2)) batch
  leftInner : Names left (axes.summed.map (·.1)) inner
  rightInner : Names right (axes.summed.map (·.2)) inner
  leftFree : Names left axes.leftFree rows
  rightFree : Names right axes.rightFree columns
  leftPerm : axes.leftOrder.Perm (List.range left.length)
  rightPerm : axes.rightOrder.Perm (List.range right.length)
  separate : ∀ c ∈ columns, c ∉ left

namespace AxesNamed

variable {axes : ContractionAxes} {left right batch rows inner columns : List ι}
  (named : AxesNamed axes left right batch rows inner columns)

include named

theorem leftNames : Names left axes.leftOrder (batch ++ rows ++ inner) :=
  (named.leftBatch.append named.leftFree).append named.leftInner

theorem rightNames : Names right axes.rightOrder (batch ++ inner ++ columns) :=
  (named.rightBatch.append named.rightInner).append named.rightFree

theorem leftLabels : (batch ++ rows ++ inner).Perm left := named.leftNames.perm named.leftPerm

theorem rightLabels : (batch ++ inner ++ columns).Perm right :=
  named.rightNames.perm named.rightPerm

theorem innerNodup (nodup : left.Nodup) : inner.Nodup :=
  (List.nodup_append.1 (named.leftLabels.nodup_iff.2 nodup)).2.1

theorem notMem_inner (nodup : left.Nodup) {c : ι} (hc : c ∈ batch ++ rows ++ columns) :
    c ∉ inner := by
  intro hi
  rcases List.mem_append.1 hc with hc | hc
  · exact (List.nodup_append.1 (named.leftLabels.nodup_iff.2 nodup)).2.2 c hc c hi rfl
  · exact named.separate c hc (named.leftLabels.mem_iff.1 (by simp [hi]))

theorem within_result {size : ι → Nat} {x : Assignment ι} (hl : x.Within size left)
    (hr : x.Within size right) : x.Within size (batch ++ rows ++ columns) := by
  rw [← Assignment.within_perm named.leftLabels] at hl
  rw [← Assignment.within_perm named.rightLabels] at hr
  simp only [Assignment.within_append_iff] at *
  exact ⟨hl.1, hr.2⟩

/-- Giving the inner labels the index at a place of theirs leaves the others as they are. -/
theorem set_inner [DecidableEq ι] (nodup : left.Nodup) {size : ι → Nat} {x : Assignment ι}
    (hx : x.Within size (batch ++ rows ++ columns)) {j : Nat} (hj : j < capacity (inner.map size)) :
    ∃ y : Assignment ι, x.set inner (unravel (inner.map size) j) = y ∧
      (∀ c ∈ batch ++ rows ++ columns, y c = x c) ∧ y.Within size (batch ++ rows ++ inner) ∧
      y.Within size (batch ++ inner ++ columns) ∧ placeOf size y inner = j := by
  obtain ⟨inside, place⟩ := within_set_unravel (x := x) (named.innerNodup nodup) hj
  have outside : ∀ c ∈ batch ++ rows ++ columns,
      x.set inner (unravel (inner.map size) j) c = x c := fun c hc =>
    Assignment.set_of_notMem (named.notMem_inner nodup hc)
  generalize x.set inner (unravel (inner.map size) j) = y at *
  have hy : y.Within size (batch ++ rows ++ columns) := fun c hc => outside c hc ▸ hx c hc
  refine ⟨y, rfl, outside, ?_, ?_, place⟩
  · simp only [Assignment.within_append_iff] at hy ⊢
    exact ⟨hy.1, inside⟩
  · simp only [Assignment.within_append_iff] at hy ⊢
    exact ⟨⟨hy.1.1, inside⟩, hy.2⟩

theorem paired : ∀ pair ∈ axes.batch ++ axes.summed,
    ∃ c, left[pair.1]? = some c ∧ right[pair.2]? = some c := by
  intro pair hm
  rcases List.mem_append.1 hm with hm | hm
  · exact named.leftBatch.paired named.rightBatch pair hm
  · exact named.leftInner.paired named.rightInner pair hm

theorem ofShapes? (size : ι → Nat) :
    ContractionSizes.ofShapes? (left.map size) (right.map size) axes =
      some (.ofLabels size batch rows inner columns) := by
  rw [ContractionSizes.ofShapes?, named.leftBatch.sizesAt?, named.leftFree.sizesAt?,
    named.leftInner.sizesAt?, named.rightFree.sizesAt?]
  rfl

end AxesNamed

namespace Tensor

theorem requirePairs_eq_ok {left right : List ι} {pairs : List (Nat × Nat)}
    (h : ∀ pair ∈ pairs, ∃ c, left[pair.1]? = some c ∧ right[pair.2]? = some c)
    (size : ι → Nat) : requirePairs (left.map size) (right.map size) pairs = .ok () := by
  induction pairs with
  | nil => rfl
  | cons pair pairs ih =>
    obtain ⟨⟨c, hl, hr⟩, h⟩ := List.forall_mem_cons.1 h
    rw [requirePairs, List.getElem?_map, List.getElem?_map, hl, hr]
    exact (if_pos rfl).trans (ih h)

variable [DecidableEq ι] {size : ι → Nat}

/-- The product of the blocks of two sides, entry by entry. -/
theorem batchedProduct?_spec [Zero α] [Add α] [Mul α] {a b : Tensor α} (sizes : ContractionSizes)
    (ha : a.shape = sizes.leftBlock) (hb : b.shape = sizes.rightBlock) :
    ∃ u, batchedProduct? a b sizes = some u ∧ u.shape = sizes.block ∧
      ∀ i r c, (offset? sizes.block [i, r, c]).isSome →
        u.get? [i, r, c] = (List.range (capacity sizes.inner)).foldlM
          (fun acc j => do return acc + (← a.get? [i, r, j]) * (← b.get? [i, j, c])) 0 := by
  have readable (index : List Nat) (h : (offset? sizes.block index).isSome) :
      ∃ i r c, index = [i, r, c] ∧ ∀ j < capacity sizes.inner,
        (a.get? [i, r, j]).isSome ∧ (b.get? [i, j, c]).isSome := by
    have hlength := length_of_isSome_offset? h
    obtain ⟨i, r, c, rfl⟩ := List.length_eq_three.1 hlength
    refine ⟨i, r, c, rfl, fun j hj => ?_⟩
    obtain ⟨hi, hr, hc⟩ := isSome_offset?_three.1 h
    exact ⟨isSome_get? (ha ▸ isSome_offset?_three.2 ⟨hi, hr, hj⟩),
      isSome_get? (hb ▸ isSome_offset?_three.2 ⟨hi, hj, hc⟩)⟩
  have made : ∃ u, batchedProduct? a b sizes = some u :=
    exists_tabulate?_eq_some fun index h => by
      obtain ⟨i, r, c, rfl, hread⟩ := readable index h
      refine isSome_foldlM (fun j hj acc => ?_) 0
      obtain ⟨hl, hr⟩ := hread j (List.mem_range.1 hj)
      obtain ⟨l, hl⟩ := Option.isSome_iff_exists.1 hl
      obtain ⟨m, hr⟩ := Option.isSome_iff_exists.1 hr
      simp [hl, hr]
  obtain ⟨u, hu⟩ := made
  exact ⟨u, hu, shape_of_tabulate? hu, fun i r c h => get?_of_tabulate? hu h⟩

/-- One side of a contraction, permuted and read as three axes. -/
theorem exists_block {t : Tensor α} {labels first second third : List ι} {order : List Nat}
    (shape : t.shape = labels.map size) (nodup : labels.Nodup)
    (perm : order.Perm (List.range labels.length))
    (names : Names labels order (first ++ second ++ third)) :
    ∃ a u, t.permuted? order = some a ∧
      a.reshape? [capacity (first.map size), capacity (second.map size),
        capacity (third.map size)] = some u ∧
      u.shape = [capacity (first.map size), capacity (second.map size),
        capacity (third.map size)] ∧
      ∀ x : Assignment ι, x.Within size (first ++ second ++ third) →
        u.get? [placeOf size x first, placeOf size x second, placeOf size x third] =
          t.get? (labels.map x) := by
  obtain ⟨a, ha, has, hae⟩ := permuted?_spec shape nodup perm names
  have sizes : capacity [capacity (first.map size), capacity (second.map size),
      capacity (third.map size)] = capacity a.shape := by simp [has]
  obtain ⟨u, hu, hus, hud⟩ := reshape?_eq_some a sizes
  exact ⟨a, u, ha, hu, hus, fun x hx => (get?_block has hud hus hx).trans (hae x hx)⟩

section Contract

variable {left right : Tensor α} {axes : ContractionAxes} {L R batch rows inner columns : List ι}
  (named : AxesNamed axes L R batch rows inner columns) (hl : left.shape = L.map size)
  (hr : right.shape = R.map size) (leftNodup : L.Nodup) (rightNodup : R.Nodup)

include named hl hr

omit [DecidableEq ι] in
theorem contract_eq [Zero α] [Add α] [Mul α] :
    left.contract right axes = (do
      (ContractionSizes.ofLabels size batch rows inner columns).requireAddressable
      orFault (contracted? left right axes (.ofLabels size batch rows inner columns))) := by
  have pairs : requirePairs left.shape right.shape (axes.batch ++ axes.summed) = .ok () := by
    rw [hl, hr]
    exact requirePairs_eq_ok named.paired size
  have leftPerm : requirePermutation axes.leftOrder left.rank = .ok () :=
    requirePermutation_of_perm (by simpa [rank, hl] using named.leftPerm)
  have rightPerm : requirePermutation axes.rightOrder right.rank = .ok () :=
    requirePermutation_of_perm (by simpa [rank, hr] using named.rightPerm)
  rw [contract, pairs, leftPerm, rightPerm, hl, hr, named.ofShapes? size]
  rfl

omit [DecidableEq ι] in
theorem isAddressable_of_contract [Zero α] [Add α] [Mul α] {u : Tensor α}
    (h : left.contract right axes = .ok u) :
    isAddressable ((batch ++ rows ++ columns).map size) := by
  by_contra oversized
  rw [contract_eq named hl hr, ContractionSizes.requireAddressable,
    ContractionSizes.result_ofLabels, if_neg oversized] at h
  split at h <;> cases h

include leftNodup rightNodup

/-- The entries of a contraction as sums over the places of the inner axes. -/
theorem contracted?_spec [Zero α] [Add α] [Mul α] :
    ∃ u, contracted? left right axes (.ofLabels size batch rows inner columns) = some u ∧
      u.shape = (batch ++ rows ++ columns).map size ∧
      ∀ x : Assignment ι, x.Within size (batch ++ rows ++ columns) →
        u.get? ((batch ++ rows ++ columns).map x) =
          (List.range (capacity (inner.map size))).foldlM (fun acc j => do
            let y := x.set inner (unravel (inner.map size) j)
            return acc + (← left.get? (L.map y)) * (← right.get? (R.map y))) 0 := by
  obtain ⟨a, a', ha, ha', has, hae⟩ :=
    exists_block hl leftNodup named.leftPerm named.leftNames
  obtain ⟨b, b', hb, hb', hbs, hbe⟩ :=
    exists_block hr rightNodup named.rightPerm named.rightNames
  obtain ⟨p, hp, hps, hpe⟩ :=
    batchedProduct?_spec (.ofLabels size batch rows inner columns) has hbs
  have same : capacity (ContractionSizes.ofLabels size batch rows inner columns).result =
      capacity p.shape := by
    simp [hps, ContractionSizes.ofLabels, ContractionSizes.block, ContractionSizes.result]
  obtain ⟨u, hu, hus, hud⟩ := reshape?_eq_some p same
  rw [ContractionSizes.result_ofLabels] at hus
  refine ⟨u, ?_, hus, fun x hx => ?_⟩
  · have ha' : a.reshape? (ContractionSizes.ofLabels size batch rows inner columns).leftBlock =
      some a' := ha'
    have hb' : b.reshape? (ContractionSizes.ofLabels size batch rows inner columns).rightBlock =
      some b' := hb'
    simp only [contracted?, ha, hb, ha', hb', hp, hu, Option.bind_eq_bind, Option.bind_some]
  have valid : (offset? (ContractionSizes.ofLabels size batch rows inner columns).block
      [placeOf size x batch, placeOf size x rows, placeOf size x columns]).isSome := by
    rw [ContractionSizes.ofLabels, ContractionSizes.block, offset?_block hx]
    exact isSome_offset?_map_iff.2 hx
  rw [← get?_block hus hud.symm hps hx, hpe _ _ _ valid]
  refine foldlM_congr (fun j hj acc => ?_) 0
  obtain ⟨y, hset, outside, hleft, hright, hplace⟩ :=
    named.set_inner leftNodup hx (List.mem_range.1 hj)
  simp only [hset]
  rw [← hae y hleft, ← hbe y hright, hplace,
    placeOf_congr fun c hc => outside c (by simp [hc]),
    placeOf_congr fun c hc => outside c (by simp [hc]),
    placeOf_congr fun c hc => outside c (by simp [hc])]

theorem contract_spec [Zero α] [Add α] [Mul α]
    (addressable : isAddressable ((batch ++ rows ++ columns).map size)) :
    ∃ u, left.contract right axes = .ok u ∧
      contracted? left right axes (.ofLabels size batch rows inner columns) = some u ∧
      u.shape = (batch ++ rows ++ columns).map size := by
  obtain ⟨u, hu, hs, -⟩ := contracted?_spec named hl hr leftNodup rightNodup
  refine ⟨u, ?_, hu, hs⟩
  rw [contract_eq named hl hr, hu, ContractionSizes.requireAddressable,
    ContractionSizes.result_ofLabels, if_pos addressable]
  rfl

/-- A contraction multiplies entries and sums over the inner labels. -/
theorem contracted?_entry [CommSemiring α] {u : Tensor α}
    (hu : contracted? left right axes (.ofLabels size batch rows inner columns) = some u) :
    u.entry (batch ++ rows ++ columns) =
      marginal size inner fun x => left.entry L x * right.entry R x := by
  obtain ⟨v, hv, hs, he⟩ := contracted?_spec named hl hr leftNodup rightNodup
  obtain rfl : u = v := Option.some.inj (hu.symm.trans hv)
  refine entry_eq hs (fun x hx => ?_) fun x hx => ?_
  · rw [he x hx, marginal_eq_sum_unravel]
    refine foldlM_add_eq_sum fun j hj acc => ?_
    obtain ⟨y, hset, -, hleft, hright, -⟩ := named.set_inner leftNodup hx hj
    rw [Assignment.within_perm named.leftLabels] at hleft
    rw [Assignment.within_perm named.rightLabels] at hright
    simp only [hset, get?_eq_some_entry hl hleft, get?_eq_some_entry hr hright]
    rfl
  · -- outside the sizes one of the sides has no entry
    refine marginal_eq_zero fun y agree => ?_
    have hy : ¬(y.Within size L ∧ y.Within size R) := fun h => hx fun c hc =>
      agree c (named.notMem_inner leftNodup hc) ▸ named.within_result h.1 h.2 c hc
    rcases not_and_or.1 hy with h | h
    · rw [entry_eq_zero hl h, zero_mul]
    · rw [entry_eq_zero hr h, mul_zero]

end Contract

end Tensor

namespace Pairing

variable {left right : Labels} (keep : Label → Bool)

theorem shared_split (left right : Labels) :
    ((split left right keep).batch ++ (split left right keep).summed).Perm
      (left.filter fun c => right.contains c) := by
  simpa [split, List.filter_filter, Bool.and_comm] using
    List.filter_append_perm keep (left.filter fun c => right.contains c)

theorem leftLabels_split (left right : Labels) :
    ((split left right keep).batch ++ (split left right keep).leftOnly ++
      (split left right keep).summed).Perm left := by
  have swap : ((split left right keep).batch ++ (split left right keep).leftOnly ++
      (split left right keep).summed).Perm ((split left right keep).batch ++
        (split left right keep).summed ++ (split left right keep).leftOnly) := by
    rw [List.append_assoc, List.append_assoc]
    exact List.perm_append_comm.append_left _
  exact swap.trans (((shared_split keep left right).append_right _).trans
    (List.filter_append_perm _ left))

theorem rightLabels_split (leftNodup : left.Nodup) (rightNodup : right.Nodup) :
    ((split left right keep).batch ++ (split left right keep).summed ++
      (split left right keep).rightOnly).Perm right := by
  have shared : (left.filter fun c => right.contains c).Perm
      (right.filter fun c => left.contains c) :=
    (List.perm_ext_iff_of_nodup (leftNodup.filter _) (rightNodup.filter _)).2 fun c => by
      simp [and_comm]
  exact (((shared_split keep left right).trans shared).append_right _).trans
    (List.filter_append_perm _ right)

end Pairing

namespace ContractionAxes

theorem ofPairing_eq {left right : Labels} {pairing : Pairing}
    (leftLabels : ∀ c ∈ pairing.batch ++ pairing.leftOnly ++ pairing.summed, c ∈ left)
    (rightLabels : ∀ c ∈ pairing.batch ++ pairing.summed ++ pairing.rightOnly, c ∈ right) :
    ofPairing left right pairing =
      { batch := pairing.batch.map fun c => (left.idxOf c, right.idxOf c)
        summed := pairing.summed.map fun c => (left.idxOf c, right.idxOf c)
        leftFree := pairing.leftOnly.map fun c => left.idxOf c
        rightFree := pairing.rightOnly.map fun c => right.idxOf c } := by
  simp only [List.mem_append] at leftLabels rightLabels
  have both (labels : Labels) (hl : ∀ c ∈ labels, c ∈ left) (hr : ∀ c ∈ labels, c ∈ right) :
      (labels.filterMap fun c => do return (← left.idxOf? c, ← right.idxOf? c)) =
        labels.map fun c => (left.idxOf c, right.idxOf c) := by
    rw [← List.filterMap_eq_map]
    refine List.filterMap_congr fun c hc => ?_
    rw [idxOf?_of_mem (hl c hc), idxOf?_of_mem (hr c hc)]
    rfl
  rw [ofPairing, both pairing.batch (fun c hc => leftLabels c (.inl (.inl hc)))
      (fun c hc => rightLabels c (.inl (.inl hc))),
    both pairing.summed (fun c hc => leftLabels c (.inr hc))
      (fun c hc => rightLabels c (.inl (.inr hc))),
    filterMap_idxOf? (fun c hc => leftLabels c (.inl (.inr hc))),
    filterMap_idxOf? (fun c hc => rightLabels c (.inr hc))]

theorem named_ofPairing {left right : Labels} (keep : Label → Bool) (leftNodup : left.Nodup)
    (rightNodup : right.Nodup) :
    AxesNamed (ofPairing left right (.split left right keep)) left right
      (Pairing.split left right keep).batch (Pairing.split left right keep).leftOnly
      (Pairing.split left right keep).summed (Pairing.split left right keep).rightOnly := by
  have leftPerm := Pairing.leftLabels_split keep left right
  have rightPerm := Pairing.rightLabels_split keep leftNodup rightNodup
  have leftLabels (c : Label) := (leftPerm.mem_iff (a := c)).1
  have rightLabels (c : Label) := (rightPerm.mem_iff (a := c)).1
  have leftAll := map_idxOf_perm leftNodup leftPerm
  have rightAll := map_idxOf_perm rightNodup rightPerm
  rw [ofPairing_eq leftLabels rightLabels]
  simp only [List.mem_append] at leftLabels rightLabels
  simp only [List.map_append] at leftAll rightAll
  constructor
  · simpa [Function.comp_def] using names_idxOf fun c hc => leftLabels c (.inl (.inl hc))
  · simpa [Function.comp_def] using names_idxOf fun c hc => rightLabels c (.inl (.inl hc))
  · simpa [Function.comp_def] using names_idxOf fun c hc => leftLabels c (.inr hc)
  · simpa [Function.comp_def] using names_idxOf fun c hc => rightLabels c (.inl (.inr hc))
  · exact names_idxOf fun c hc => leftLabels c (.inl (.inr hc))
  · exact names_idxOf fun c hc => rightLabels c (.inr hc)
  · simpa [leftOrder, Function.comp_def] using leftAll
  · simpa [rightOrder, Function.comp_def] using rightAll
  · exact fun c hc => (Pairing.mem_rightOnly_split.1 hc).2

end ContractionAxes

end Einsum
