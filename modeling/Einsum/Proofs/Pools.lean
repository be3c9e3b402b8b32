import Einsum.Path
import Einsum.Proofs.Moves

/-! Pools of tensors at hand.
In a valid pool the live tensors are those that have labels. Any two of them can be
contracted: their labels fall apart, the pool stays valid and the contraction is a move
between the tensors at hand, whatever numbers these have elsewhere. -/

namespace Einsum.Pool

variable {pool : Pool} {output result : Labels} {a b id : Nat}

/-- The labels of a tensor, none if it is not at hand. -/
def labelsOf (pool : Pool) (id : Nat) : Labels := pool.made[id]?.join.getD []

structure Valid (pool : Pool) : Prop where
  nodup : pool.live.Nodup
  labelled : ∀ id, id ∈ pool.live ↔ ∃ labels, pool.made[id]? = some (some labels)

def contracted (pool : Pool) (a b : Nat) (result : Labels) : Pool where
  made := (pool.made.set a none).set b none ++ [some result]
  live := (pool.live.filter fun other => other != a && other != b) ++ [pool.made.length]

theorem length_made_contracted (pool : Pool) (a b : Nat) (result : Labels) :
    (pool.contracted a b result).made.length = pool.made.length + 1 := by
  simp [contracted]

theorem labelsOf_contracted_length (pool : Pool) (a b : Nat) (result : Labels) :
    (pool.contracted a b result).labelsOf pool.made.length = result := by
  simp [labelsOf, contracted]

theorem getElem?_contracted (pool : Pool) (a b : Nat) (result : Labels)
    (hlt : id < pool.made.length) : (pool.contracted a b result).made[id]? =
      if id = a ∨ id = b then some none else pool.made[id]? := by
  rw [contracted, List.getElem?_append_left (by simpa using hlt), List.getElem?_set,
    List.getElem?_set]
  grind

theorem ofTerms_valid (terms : List Labels) : (ofTerms terms).Valid where
  nodup := List.nodup_range
  labelled id := by
    simp only [ofTerms, List.mem_range, List.getElem?_map, Option.map_eq_some_iff]
    constructor
    · intro h
      exact ⟨terms[id], terms[id], List.getElem?_eq_getElem h, rfl⟩
    · rintro ⟨-, labels, h, -⟩
      exact (List.getElem?_eq_some_iff.1 h).1

theorem labelsOf_ofTerms (terms : List Labels) (id : Nat) :
    (ofTerms terms).labelsOf id = terms[id]?.getD [] := by
  cases h : terms[id]? <;> simp [labelsOf, ofTerms, h]

namespace Valid

theorem getElem? (valid : pool.Valid) (live : id ∈ pool.live) :
    pool.made[id]? = some (some (pool.labelsOf id)) := by
  obtain ⟨labels, h⟩ := (valid.labelled id).1 live
  simp [labelsOf, h]

theorem lt_length (valid : pool.Valid) (live : id ∈ pool.live) : id < pool.made.length :=
  (List.getElem?_eq_some_iff.1 (valid.getElem? live)).1

theorem labels_eq (valid : pool.Valid) (live : id ∈ pool.live) :
    pool.labels id = .ok (pool.labelsOf id) := by
  simp [labels, valid.getElem? live]

theorem neededElsewhere_eq (valid : pool.Valid) (a b : Nat) (output : Labels) :
    pool.neededElsewhere a b output = .ok (Labels.ascending (output ++
      ((pool.live.filter fun id => id != a && id != b).map pool.labelsOf).flatten)) := by
  have labels (ids : List Nat) (h : ∀ id ∈ ids, id ∈ pool.live) :
      ids.mapM pool.labels = .ok (ids.map pool.labelsOf) := by
    induction ids with
    | nil => rfl
    | cons id ids ih =>
      obtain ⟨live, h⟩ := List.forall_mem_cons.1 h
      rw [List.mapM_cons, valid.labels_eq live, ih h]
      rfl
  rw [neededElsewhere, labels _ fun id hm => List.mem_of_mem_filter hm]
  rfl

/-- The labels of two live tensors fall apart: those stay that the output or another live
tensor needs. -/
theorem exists_pairing (valid : pool.Valid) (ha : a ∈ pool.live) (hb : b ∈ pool.live)
    (output : Labels) :
    ∃ keep, pool.pairing a b output = .ok (.split (pool.labelsOf a) (pool.labelsOf b) keep) ∧
      ∀ c, keep c = true ↔ c ∈ output ∨ ∃ id ∈ pool.live, id ≠ a ∧ id ≠ b ∧ c ∈ pool.labelsOf id := by
  refine ⟨fun c => (Labels.ascending (output ++ ((pool.live.filter fun id =>
    id != a && id != b).map pool.labelsOf).flatten)).contains c, ?_, fun c => ?_⟩
  · rw [pairing, valid.neededElsewhere_eq, valid.labels_eq ha, valid.labels_eq hb]
    rfl
  · simp [Labels.mem_ascending, and_assoc]

theorem contract_eq (valid : pool.Valid) (ha : a ∈ pool.live) (hb : b ∈ pool.live)
    (result : Labels) :
    pool.contract a b result = .ok (pool.made.length, pool.contracted a b result) := by
  have hla := valid.lt_length ha
  have hlb := valid.lt_length hb
  rw [contract, if_neg (by omega), if_neg (by omega)]
  rfl

theorem labelsOf_contracted (valid : pool.Valid) (live : id ∈ pool.live) (ha : id ≠ a)
    (hb : id ≠ b) (result : Labels) :
    (pool.contracted a b result).labelsOf id = pool.labelsOf id := by
  rw [labelsOf, getElem?_contracted pool a b result (valid.lt_length live), if_neg (by simp [ha, hb]),
    labelsOf]

theorem contracted (valid : pool.Valid) (a b : Nat) (result : Labels) :
    (pool.contracted a b result).Valid where
  nodup := by
    refine List.nodup_append.2 ⟨valid.nodup.filter _, List.pairwise_singleton _ _, ?_⟩
    intro id hid new hnew
    have := valid.lt_length (List.mem_of_mem_filter hid)
    rw [List.mem_singleton.1 hnew]
    omega
  labelled id := by
    have mem : id ∈ (pool.contracted a b result).live ↔
        (id ∈ pool.live ∧ id ≠ a ∧ id ≠ b) ∨ id = pool.made.length := by
      simp [Pool.contracted]
    rw [mem]
    rcases Nat.lt_trichotomy id pool.made.length with hlt | rfl | hgt
    · rw [getElem?_contracted pool a b result hlt, valid.labelled]
      by_cases h : id = a ∨ id = b
      · rcases h with rfl | rfl <;> simp [Nat.ne_of_lt hlt]
      · simp [not_or.1 h, Nat.ne_of_lt hlt]
    · simp [Pool.contracted]
    · have out := length_made_contracted pool a b result
      have hnot : id ∉ pool.live := fun live => by have := valid.lt_length live; omega
      rw [List.getElem?_eq_none (by omega)]
      simp [hnot, Nat.ne_of_gt hgt]

theorem live_perm (valid : pool.Valid) (ha : a ∈ pool.live) (hb : b ∈ pool.live) (ne : a ≠ b) :
    pool.live.Perm (a :: b :: pool.live.filter fun other => other != a && other != b) := by
  have nodup : (a :: b :: pool.live.filter fun other => other != a && other != b).Nodup := by
    simp [ne, valid.nodup.filter]
  refine (List.perm_ext_iff_of_nodup valid.nodup nodup).2 fun id => ?_
  by_cases hia : id = a
  · simp [hia, ha]
  · by_cases hib : id = b
    · simp [hib, hb]
    · simp [hia, hib]

end Valid

/-- The tensors at hand, where `number` gives the number of each in a plan. -/
def atHand (pool : Pool) (number : Nat → Nat) : List Source :=
  pool.live.map fun id => ⟨number id, pool.labelsOf id⟩

theorem Valid.move (valid : pool.Valid) (ha : a ∈ pool.live) (hb : b ∈ pool.live) (ne : a ≠ b)
    (nodup : ∀ id ∈ pool.live, (pool.labelsOf id).Nodup) {keep : Label → Bool}
    (kept : ∀ c, keep c = true ↔
      c ∈ output ∨ ∃ id ∈ pool.live, id ≠ a ∧ id ≠ b ∧ c ∈ pool.labelsOf id)
    {pairing : Pairing} (split : pairing = .split (pool.labelsOf a) (pool.labelsOf b) keep)
    (number number' : Nat → Nat) (same : ∀ id ∈ pool.live, number' id = number id)
    (flops : Estimate) :
    Move output (number' pool.made.length) (pool.atHand number)
      ⟨.contract (number a) (number b) pairing
        (.ofPairing (pool.labelsOf a) (pool.labelsOf b) pairing) flops,
        pairing.result, number' pool.made.length⟩
      ((pool.contracted a b pairing.result).atHand number') := by
  subst split
  let others := pool.live.filter fun other => other != a && other != b
  have hothers {id : Nat} : id ∈ others ↔ id ∈ pool.live ∧ id ≠ a ∧ id ≠ b := by
    simp [others]
  let source (id : Nat) : Source := ⟨number id, pool.labelsOf id⟩
  have hrest (c : Label) : (∀ s ∈ others.map source, c ∉ s.labels) ↔
      ¬∃ id ∈ pool.live, id ≠ a ∧ id ≠ b ∧ c ∈ pool.labelsOf id := by
    rw [List.forall_mem_map]
    simp [hothers, source]
  have before : (pool.atHand number).Perm ([source a, source b] ++ others.map source) :=
    (valid.live_perm ha hb ne).map source
  have after (result : Labels) : ((pool.contracted a b result).atHand number').Perm
      (⟨number' pool.made.length, result⟩ :: others.map source) := by
    have new : (pool.contracted a b result).live = others ++ [pool.made.length] := rfl
    rw [atHand, new, List.map_append, List.map_singleton, labelsOf_contracted_length]
    refine (List.perm_append_singleton _ _).trans (.cons _ (.of_eq ?_))
    refine List.map_congr_left fun id hm => ?_
    obtain ⟨live, hia, hib⟩ := hothers.1 hm
    rw [same id live, valid.labelsOf_contracted live hia hib]
  refine .mk before (after _) rfl (.contract _ _ keep flops (nodup a ha) (nodup b hb)) ?_ ?_
  · intro c hc
    have dropped := (Pairing.mem_summed_split.1 hc).2.2
    have := mt (kept c).2 (by simp [dropped])
    rw [not_or] at this
    exact ⟨this.1, (hrest c).2 this.2⟩
  · intro c hc hout alone
    have dropped : keep c ≠ true := mt (kept c).1 (not_or.2 ⟨hout, (hrest c).1 alone⟩)
    rcases Pairing.mem_result_split.1 hc with h | h | h
    · exact absurd h.2.2 dropped
    · simp [source, h]
    · simp [source, h]

end Einsum.Pool
