import Einsum.Proofs.Pools

/-! Pools through any run of contractions.
A run may take out any tensors that were made, twice the same and such as are gone already,
and may put in any labels. All that it needs is that both numbers were given before. The list
of live tensors and the labels that are left tell the same story after every step: a number
is live as long as it has labels, and once it has none it never has any again. -/

namespace Einsum.Pool

variable {pool pool' : Pool} {a b id : Nat} {result : Labels}

/-- The tensors to take out and the labels to put in. -/
structure Call where
  left : Nat
  right : Nat
  result : Labels
deriving DecidableEq, Repr

/-- Makes one call after the other; gives the new numbers and the pool in the end. -/
def contractAll (pool : Pool) : List Call → Except Error (List Nat × Pool)
  | [] => .ok ([], pool)
  | call :: calls => do
    let (id, pool) ← pool.contract call.left call.right call.result
    let (ids, pool) ← pool.contractAll calls
    return (id :: ids, pool)

/-- A valid pool whose live tensors are listed by ascending number. -/
structure Orderly (pool : Pool) : Prop extends pool.Valid where
  ascending : pool.live.Pairwise (· < ·)

theorem contract_eq_ok_iff : pool.contract a b result = .ok (id, pool') ↔
    a < pool.made.length ∧ b < pool.made.length ∧ id = pool.made.length ∧
      pool' = pool.contracted a b result := by
  rw [contract]
  split
  · simp only [reduceCtorEq, false_iff]
    omega
  · split
    · simp only [reduceCtorEq, false_iff]
      omega
    · simp only [Except.ok.injEq, Prod.mk.injEq]
      constructor
      · rintro ⟨rfl, rfl⟩
        exact ⟨by omega, by omega, rfl, rfl⟩
      · rintro ⟨-, -, rfl, rfl⟩
        exact ⟨rfl, rfl⟩

theorem labels_contracted_length (pool : Pool) (a b : Nat) (result : Labels) :
    (pool.contracted a b result).labels pool.made.length = .ok result := by
  simp [labels, contracted]

/-- A contraction changes the labels of its two tensors and of the new one only. -/
theorem labels_contracted (pool : Pool) (result : Labels) (ha : id ≠ a) (hb : id ≠ b)
    (new : id ≠ pool.made.length) :
    (pool.contracted a b result).labels id = pool.labels id := by
  have same : (pool.contracted a b result).made[id]? = pool.made[id]? := by
    rcases Nat.lt_or_gt_of_ne new with below | above
    · rw [getElem?_contracted pool a b result below, if_neg (by simp [ha, hb])]
    · have length := length_made_contracted pool a b result
      rw [List.getElem?_eq_none (by omega), List.getElem?_eq_none (by omega)]
  rw [labels, labels, same]

theorem mem_live_contracted : id ∈ (pool.contracted a b result).live ↔
    (id ∈ pool.live ∧ id ≠ a ∧ id ≠ b) ∨ id = pool.made.length := by
  simp [contracted]

theorem Valid.mem_live_iff (valid : pool.Valid) :
    id ∈ pool.live ↔ ∃ labels, pool.labels id = .ok labels := by
  constructor
  · intro live
    exact ⟨_, valid.labels_eq live⟩
  · rintro ⟨labels, h⟩
    rw [Pool.labels] at h
    split at h
    · exact (valid.labelled id).2 ⟨_, ‹_›⟩
    · cases h

theorem ofTerms_orderly (terms : List Labels) : (ofTerms terms).Orderly where
  toValid := ofTerms_valid terms
  ascending := List.pairwise_lt_range

/-- The new number is the largest one. -/
theorem Orderly.contracted (orderly : pool.Orderly) (a b : Nat) (result : Labels) :
    (pool.contracted a b result).Orderly where
  toValid := orderly.toValid.contracted a b result
  ascending := by
    refine List.pairwise_append.2 ⟨orderly.ascending.filter _, List.pairwise_singleton _ _, ?_⟩
    intro id hid new hnew
    rw [List.mem_singleton.1 hnew]
    exact orderly.lt_length (List.mem_of_mem_filter hid)

/-- What is needed elsewhere can be told whatever two tensors are left out. -/
theorem Valid.exists_neededElsewhere (valid : pool.Valid) (x y : Nat) (output : Labels) :
    ∃ kept, pool.neededElsewhere x y output = .ok kept ∧ kept.Pairwise (· < ·) ∧
      ∀ c, c ∈ kept ↔ c ∈ output ∨ ∃ id ∈ pool.live, id ≠ x ∧ id ≠ y ∧
        ∃ labels, pool.labels id = .ok labels ∧ c ∈ labels := by
  refine ⟨_, valid.neededElsewhere_eq x y output, Labels.pairwise_ascending _, fun c => ?_⟩
  simp only [Labels.mem_ascending, List.mem_append, List.mem_flatten, List.mem_map,
    List.mem_filter, Bool.and_eq_true, bne_iff_ne, ne_eq]
  refine or_congr_right ⟨?_, ?_⟩
  · rintro ⟨_, ⟨id, ⟨live, hx, hy⟩, rfl⟩, hc⟩
    exact ⟨id, live, hx, hy, _, valid.labels_eq live, hc⟩
  · rintro ⟨id, live, hx, hy, labels, found, hc⟩
    obtain rfl := Except.ok.inj (found.symm.trans (valid.labels_eq live))
    exact ⟨_, ⟨id, ⟨live, hx, hy⟩, rfl⟩, hc⟩

section Run

variable {call : Call} {calls : List Call} {ids : List Nat}

theorem contractAll_cons_eq_ok_iff : pool.contractAll (call :: calls) = .ok (ids, pool') ↔
    call.left < pool.made.length ∧ call.right < pool.made.length ∧
      ∃ later, ids = pool.made.length :: later ∧
        (pool.contracted call.left call.right call.result).contractAll calls = .ok (later, pool') := by
  rw [contractAll, bind_eq_ok_iff]
  constructor
  · rintro ⟨⟨id, next⟩, first, h⟩
    obtain ⟨left, right, rfl, rfl⟩ := contract_eq_ok_iff.1 first
    obtain ⟨⟨later, last⟩, rest, h⟩ := bind_eq_ok_iff.1 h
    obtain ⟨rfl, rfl⟩ := Prod.mk.inj (Except.ok.inj h)
    exact ⟨left, right, later, rfl, rest⟩
  · rintro ⟨left, right, later, rfl, rest⟩
    exact ⟨_, contract_eq_ok_iff.2 ⟨left, right, rfl, rfl⟩, bind_eq_ok_iff.2 ⟨_, rest, rfl⟩⟩

/-- A run goes through just if every call names tensors made before it. -/
theorem exists_contractAll_iff : (∃ run, pool.contractAll calls = .ok run) ↔
    ∀ k call, calls[k]? = some call →
      call.left < pool.made.length + k ∧ call.right < pool.made.length + k := by
  induction calls generalizing pool with
  | nil => simp [contractAll]
  | cons call calls ih =>
    have step : (∃ run, pool.contractAll (call :: calls) = .ok run) ↔
        (call.left < pool.made.length ∧ call.right < pool.made.length) ∧
          ∃ run, (pool.contracted call.left call.right call.result).contractAll calls = .ok run := by
      simp only [Prod.exists, contractAll_cons_eq_ok_iff]
      grind
    rw [step, ih, length_made_contracted]
    constructor
    · rintro ⟨first, rest⟩ k other h
      cases k with
      | zero =>
        obtain rfl : call = other := by simpa using h
        exact first
      | succ k =>
        have := rest k other (by simpa using h)
        omega
    · intro h
      refine ⟨h 0 call rfl, fun k other hk => ?_⟩
      have := h (k + 1) other (by simpa using hk)
      omega

theorem Orderly.contractAll (orderly : pool.Orderly)
    (h : pool.contractAll calls = .ok (ids, pool')) :
    pool'.Orderly ∧ ids = List.range' pool.made.length calls.length ∧
      pool'.made.length = pool.made.length + calls.length := by
  induction calls generalizing pool ids with
  | nil =>
    obtain ⟨rfl, rfl⟩ := Prod.mk.inj (Except.ok.inj h)
    exact ⟨orderly, rfl, rfl⟩
  | cons call calls ih =>
    obtain ⟨-, -, later, rfl, rest⟩ := contractAll_cons_eq_ok_iff.1 h
    obtain ⟨final, numbers, length⟩ := ih (orderly.contracted _ _ _) rest
    rw [length_made_contracted] at numbers length
    refine ⟨final, by rw [numbers, List.length_cons, List.range'_succ], ?_⟩
    rw [length, List.length_cons]
    omega

/-- A tensor that is gone stays away. -/
theorem notMem_live_contractAll (h : pool.contractAll calls = .ok (ids, pool'))
    (made : id < pool.made.length) (gone : id ∉ pool.live) : id ∉ pool'.live := by
  induction calls generalizing pool ids with
  | nil =>
    obtain ⟨-, rfl⟩ := Prod.mk.inj (Except.ok.inj h)
    exact gone
  | cons call calls ih =>
    obtain ⟨-, -, later, -, rest⟩ := contractAll_cons_eq_ok_iff.1 h
    refine ih rest ?_ fun live => ?_
    · rw [length_made_contracted]
      omega
    · rcases mem_live_contracted.1 live with old | new
      · exact gone old.1
      · omega

end Run

/-- Whatever was called, as long as the numbers had been given before: the run goes through and
numbers its tensors on, the live tensors ascend and are those that have labels, and what is
needed elsewhere can be told. The next contraction takes two tensors out, puts one in and leaves
the others as they are; what is gone stays away. -/
theorem live_iff_labelled_after_calls (terms : List Labels) (calls : List Call) :
    ((∃ run, (ofTerms terms).contractAll calls = .ok run) ↔
      ∀ k call, calls[k]? = some call →
        call.left < terms.length + k ∧ call.right < terms.length + k) ∧
    ∀ ids pool, (ofTerms terms).contractAll calls = .ok (ids, pool) →
      ids = List.range' terms.length calls.length ∧
      pool.made.length = terms.length + calls.length ∧
      pool.live.Pairwise (· < ·) ∧
      (∀ id, id ∈ pool.live ↔ ∃ labels, pool.labels id = .ok labels) ∧
      (∀ x y output, ∃ kept, pool.neededElsewhere x y output = .ok kept ∧ kept.Pairwise (· < ·) ∧
        ∀ c, c ∈ kept ↔ c ∈ output ∨ ∃ id ∈ pool.live, id ≠ x ∧ id ≠ y ∧
          ∃ labels, pool.labels id = .ok labels ∧ c ∈ labels) ∧
      (∀ a b result new pool', pool.contract a b result = .ok (new, pool') →
        new = pool.made.length ∧ pool'.labels new = .ok result ∧
        a ∉ pool'.live ∧ b ∉ pool'.live ∧
        ∀ id, id ≠ a → id ≠ b → id ≠ new → pool'.labels id = pool.labels id) ∧
      ∀ later ids' pool', pool.contractAll later = .ok (ids', pool') →
        ∀ id < pool.made.length, id ∉ pool.live → id ∉ pool'.live := by
  have terms_made : (ofTerms terms).made.length = terms.length := List.length_map _
  refine ⟨terms_made ▸ exists_contractAll_iff, fun ids pool h => ?_⟩
  obtain ⟨orderly, numbers, length⟩ := (ofTerms_orderly terms).contractAll h
  rw [terms_made] at numbers length
  refine ⟨numbers, length, orderly.ascending, fun id => orderly.mem_live_iff,
    orderly.exists_neededElsewhere, fun a b result new pool' step => ?_,
    fun later ids' pool' rest id made gone => notMem_live_contractAll rest made gone⟩
  obtain ⟨ha, hb, rfl, rfl⟩ := contract_eq_ok_iff.1 step
  refine ⟨rfl, labels_contracted_length pool a b result, ?_, ?_, fun id hia hib new => ?_⟩
  · rw [mem_live_contracted]
    omega
  · rw [mem_live_contracted]
    omega
  · exact labels_contracted pool result hia hib new

/-- A tensor contracted with itself, and then once more with the one that this made. -/
theorem live_iff_labelled_after_calls_twice :
    let terms : List Labels := [['i', 'j'], ['j', 'k'], ['k', 'l']]
    let calls : List Call := [⟨0, 0, ['x']⟩, ⟨0, 3, ['y', 'y']⟩]
    ∃ pool kept, (ofTerms terms).contractAll calls = .ok ([3, 4], pool) ∧
      pool.live = [1, 2, 4] ∧ pool.live.Pairwise (· < ·) ∧
      pool.neededElsewhere 9 1 ['z'] = .ok kept ∧ 'y' ∈ kept ∧ 'j' ∉ kept := by
  intro terms calls
  obtain ⟨goesThrough, after⟩ := live_iff_labelled_after_calls terms calls
  have known : ∀ k call, calls[k]? = some call →
      call.left < terms.length + k ∧ call.right < terms.length + k := by
    rintro (_ | _ | k) call h
    · obtain rfl : ⟨0, 0, ['x']⟩ = call := Option.some.inj h
      decide
    · obtain rfl : ⟨0, 3, ['y', 'y']⟩ = call := Option.some.inj h
      decide
    · cases h
  obtain ⟨⟨ids, pool⟩, run⟩ := goesThrough.2 known
  obtain ⟨rfl, -, ascending, -, needed, -, -⟩ := after ids pool run
  obtain ⟨kept, hkept, -, -⟩ := needed 9 1 ['z']
  obtain rfl : pool = ⟨[none, some ['j', 'k'], some ['k', 'l'], none, some ['y', 'y']], [1, 2, 4]⟩ :=
    congrArg Prod.snd (Except.ok.inj run).symm
  obtain rfl : kept = ['k', 'l', 'y', 'z'] := (Except.ok.inj hkept).symm
  exact ⟨_, _, run, rfl, ascending, hkept, by decide, by decide⟩

end Einsum.Pool
