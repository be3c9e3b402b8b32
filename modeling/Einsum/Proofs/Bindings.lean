import Mathlib.Data.Finset.Card
import Einsum.Proofs.Sizing

/-! Size tables through any run of offers.
A run offers sizes to labels in any order, again and again and against one another. The first
size that a label is offered binds it for good; an offer of another one is refused with both
sizes and changes nothing. A table may as well be kept in two parts, a map that sizes are looked
up in and a list of the labels that are bound, written one after the other. Through every run
they say what the table says, so the map never lacks a label that the list has. -/

namespace Einsum.SizeTable

variable {table : SizeTable} {offers : List (Label × Nat)} {c : Label} {size expected : Nat}

/-- The table after an offer. A refused one gives no table, and the old one stays. -/
def offer (table : SizeTable) (pair : Label × Nat) : SizeTable :=
  match table.bind pair.1 pair.2 with
  | .ok bound => bound
  | .error _ => table

def offerAll (table : SizeTable) (offers : List (Label × Nat)) : SizeTable :=
  offers.foldl offer table

theorem bind_eq_error_iff {e : Error} : table.bind c size = .error e ↔
    ∃ expected, table.get? c = some expected ∧ expected ≠ size ∧ e = .sizeMismatch c expected size := by
  cases bound : table.get? c with
  | none => simp [bind_of_get?_eq_none bound]
  | some expected =>
    rw [bind_of_get?_eq_some bound]
    by_cases same : expected = size
    · simp [same]
    · simp [same, eq_comm (a := e)]

theorem get?_offer (table : SizeTable) (pair : Label × Nat) (d : Label) :
    (table.offer pair).get? d = (table.get? d).or ([pair].lookup d) := by
  obtain ⟨c, size⟩ := pair
  cases answer : table.bind c size with
  | ok bound => rw [offer, answer, get?_bind answer]
  | error e =>
    obtain ⟨expected, bound, -, -⟩ := bind_eq_error_iff.1 answer
    rw [offer, answer, lookup_singleton]
    by_cases same : d = c <;> simp [same, bound]

/-- An offer adds its label, unless some offer before it has. -/
theorem keys_offer {seen : Labels} (keys : table.keys = Labels.distinct seen)
    (pair : Label × Nat) : (table.offer pair).keys = Labels.distinct (seen ++ [pair.1]) := by
  obtain ⟨c, size⟩ := pair
  cases answer : table.bind c size with
  | ok bound =>
    rw [offer, answer]
    exact keys_bind keys answer
  | error e =>
    obtain ⟨expected, bound, -, -⟩ := bind_eq_error_iff.1 answer
    -- what is refused is bound already, so the list has it
    have old : c ∈ seen := by
      rw [← Labels.mem_distinct, ← keys]
      by_contra new
      cases bound.symm.trans (get?_eq_none_iff.2 new)
    rw [offer, answer, Labels.distinct, eraseDups_append_singleton, if_pos old]
    exact keys

/-- What a table holds after some offers. -/
structure Records (table : SizeTable) (offers : List (Label × Nat)) : Prop where
  keys : table.keys = Labels.distinct (offers.map (·.1))
  get? : ∀ c, table.get? c = offers.lookup c

theorem Records.offer (records : table.Records offers) (pair : Label × Nat) :
    (table.offer pair).Records (offers ++ [pair]) where
  keys := by
    rw [List.map_append]
    exact keys_offer records.keys pair
  get? c := by rw [get?_offer, records.get?, List.lookup_append]

theorem Records.offerAll (records : table.Records offers) (later : List (Label × Nat)) :
    (table.offerAll later).Records (offers ++ later) := by
  induction later generalizing table offers with
  | nil => simpa [SizeTable.offerAll] using records
  | cons pair later ih =>
    rw [List.append_cons]
    exact ih (records.offer pair)

theorem records_empty : empty.Records [] where
  keys := rfl
  get? _ := rfl

/-- Each label is found at its own entry. -/
theorem get?_of_mem (nodup : table.keys.Nodup) (h : (c, size) ∈ table.entries) :
    table.get? c = some size := by
  obtain ⟨before, after, same⟩ := List.append_of_mem h
  rw [keys, same, List.map_append, List.map_cons] at nodup
  rw [SizeTable.get?, same, List.lookup_eq_some_iff]
  refine ⟨before, after, rfl, fun pair hm => bne_iff_ne.2 ?_⟩
  rintro rfl
  exact (List.nodup_append.1 nodup).2.2 _ (List.mem_map_of_mem hm) _ List.mem_cons_self rfl

theorem Records.nodup (records : table.Records offers) : table.keys.Nodup := by
  rw [records.keys]
  exact nodup_eraseDups _

theorem Records.length_eq (records : table.Records offers) :
    table.entries.length = (offers.map (·.1)).toFinset.card := by
  have members : (offers.map (·.1)).toFinset = table.keys.toFinset := by
    ext c
    rw [List.mem_toFinset, List.mem_toFinset, records.keys, Labels.mem_distinct]
  rw [members, List.toFinset_card_of_nodup records.nodup, SizeTable.keys, List.length_map]

theorem mapM_eq_some_self {β : Type} {f : β → Option β} {xs : List β} (h : ∀ x ∈ xs, f x = some x) :
    xs.mapM f = some xs := by
  induction xs with
  | nil => rfl
  | cons x xs ih =>
    obtain ⟨hx, h⟩ := List.forall_mem_cons.1 h
    rw [List.mapM_cons, hx, ih h]
    rfl

/-- A table in two parts, which know nothing of one another. -/
structure Parts where
  sizes : Label → Option Nat
  order : Labels

namespace Parts

variable {parts : Parts}

def empty : Parts := ⟨fun _ => none, []⟩

/-- Binds `c`, or holds `size` against its binding; the map is written before the list. -/
def bind (c : Label) (size : Nat) : StateM Parts (Except Error Unit) := do
  match (← get).sizes c with
  | some expected =>
    return if expected = size then .ok () else .error (.sizeMismatch c expected size)
  | none =>
    modify fun parts => { parts with sizes := Function.update parts.sizes c (some size) }
    modify fun parts => { parts with order := parts.order ++ [c] }
    return .ok ()

/-- The parts after some offers, refused ones among them. -/
def offerAll (parts : Parts) (offers : List (Label × Nat)) : Parts :=
  offers.foldl (fun parts pair => ((bind pair.1 pair.2).run parts).2) parts

/-- Every label of the list beside its size, if the map has one for each of them. -/
def entries? (parts : Parts) : Option (List (Label × Nat)) :=
  parts.order.mapM fun c => (parts.sizes c).map (c, ·)

theorem run_bind_of_eq_none (h : parts.sizes c = none) (size : Nat) : (bind c size).run parts =
    (.ok (), ⟨Function.update parts.sizes c (some size), parts.order ++ [c]⟩) := by
  simp only [bind, bind_pure_comp, StateT.run_bind, StateT.run_get, pure_bind, h,
    StateT.run_modify, StateT.run_map, map_pure]
  rfl

theorem run_bind_of_eq_some (h : parts.sizes c = some expected) (size : Nat) :
    (bind c size).run parts =
      (if expected = size then .ok () else .error (.sizeMismatch c expected size), parts) := by
  simp only [bind, bind_pure_comp, StateT.run_bind, StateT.run_get, pure_bind, h, StateT.run_pure]
  rfl

/-- The parts tell what the table tells. -/
structure Shows (parts : Parts) (table : SizeTable) : Prop where
  sizes : parts.sizes = table.get?
  order : parts.order = table.keys

theorem shows_empty : empty.Shows SizeTable.empty where
  sizes := rfl
  order := rfl

/-- Both answer an offer alike, and both are left alike by it. -/
theorem Shows.bind (shows : parts.Shows table) (c : Label) (size : Nat) :
    ((Parts.bind c size).run parts).1 = (table.bind c size).map (fun _ => ()) ∧
      ((Parts.bind c size).run parts).2.Shows (table.offer (c, size)) := by
  cases bound : table.get? c with
  | none =>
    have unbound := bind_of_get?_eq_none bound size
    rw [run_bind_of_eq_none (shows.sizes ▸ bound), unbound]
    refine ⟨rfl, funext fun d => ?_, ?_⟩
    · rw [get?_offer, lookup_singleton, shows.sizes]
      by_cases same : d = c
      · simp [same, bound]
      · simp [same]
    · rw [offer, unbound, keys, List.map_append, ← keys, shows.order]
      rfl
  | some expected =>
    rw [run_bind_of_eq_some (shows.sizes ▸ bound), offer, bind_of_get?_eq_some bound]
    by_cases same : expected = size
    · rw [if_pos same, if_pos same]
      exact ⟨rfl, shows⟩
    · rw [if_neg same, if_neg same]
      exact ⟨rfl, shows⟩

theorem Shows.offerAll (shows : parts.Shows table) (offers : List (Label × Nat)) :
    (parts.offerAll offers).Shows (table.offerAll offers) := by
  induction offers generalizing parts table with
  | nil => exact shows
  | cons pair offers ih => exact ih (shows.bind pair.1 pair.2).2

theorem Shows.entries?_eq (shows : parts.Shows table) (nodup : table.keys.Nodup) :
    parts.entries? = some table.entries := by
  rw [entries?, shows.order, keys, List.mapM_map]
  refine mapM_eq_some_self fun entry hm => ?_
  rw [Function.comp_apply, shows.sizes, get?_of_mem nodup hm]
  rfl

end Parts

/-- After any run of offers the labels offered are bound, in the order of their first offers, once
each and to the first size that they were offered, and so they stay. The next offer is refused just
if its label is bound to another size; the refusal tells both sizes and changes nothing. A table in
two parts answers the same, tells the same and finds a size for every label that it lists. -/
theorem first_offer_binds (offers : List (Label × Nat)) :
    let table := empty.offerAll offers
    let parts := Parts.empty.offerAll offers
    table.keys.Nodup ∧
    table.keys = Labels.distinct (offers.map (·.1)) ∧
    table.entries.length = (offers.map (·.1)).toFinset.card ∧
    (∀ c, table.get? c = offers.lookup c) ∧
    (∀ c, c ∈ table.keys ↔ ∃ size, table.get? c = some size) ∧
    (∀ later c size, table.get? c = some size → (table.offerAll later).get? c = some size) ∧
    (∀ c size, (∃ e, table.bind c size = .error e) ↔
      ∃ expected, table.get? c = some expected ∧ expected ≠ size) ∧
    parts.sizes = table.get? ∧ parts.order = table.keys ∧ parts.entries? = some table.entries ∧
    (∀ c size, ((Parts.bind c size).run parts).1 = (table.bind c size).map fun _ => ()) ∧
    ∀ c size expected, table.get? c = some expected → expected ≠ size →
      table.bind c size = .error (.sizeMismatch c expected size) ∧ table.offer (c, size) = table ∧
      (Parts.bind c size).run parts = (.error (.sizeMismatch c expected size), parts) := by
  intro table parts
  have records : table.Records offers := records_empty.offerAll offers
  have shows : parts.Shows table := Parts.shows_empty.offerAll offers
  refine ⟨records.nodup, records.keys, records.length_eq, records.get?, fun c => ?_,
    fun later c size bound => ?_, fun c size => ?_, shows.sizes, shows.order,
    shows.entries?_eq records.nodup, fun c size => (shows.bind c size).1,
    fun c size expected bound other => ?_⟩
  · rw [← not_iff_not, ← get?_eq_none_iff, Option.eq_none_iff_forall_ne_some, not_exists]
  · rw [records.get?] at bound
    rw [(records.offerAll later).get?, List.lookup_append, bound]
    rfl
  · simp only [bind_eq_error_iff]
    exact ⟨fun ⟨_, expected, bound, other, _⟩ => ⟨expected, bound, other⟩,
      fun ⟨expected, bound, other⟩ => ⟨_, expected, bound, other, rfl⟩⟩
  · have refused : table.bind c size = .error (.sizeMismatch c expected size) :=
      bind_eq_error_iff.2 ⟨expected, bound, other, rfl⟩
    refine ⟨refused, by rw [offer, refused], ?_⟩
    rw [Parts.run_bind_of_eq_some (shows.sizes ▸ bound), if_neg other]

/-- A label that is offered one size twice and then another one, and a label that is refused the
size one because its size is zero. -/
theorem first_offer_binds_refused :
    let offers : List (Label × Nat) := [('z', 3), ('a', 4), ('z', 3), ('z', 5), ('m', 0)]
    let table := empty.offerAll offers
    let parts := Parts.empty.offerAll offers
    parts.order = ['z', 'a', 'm'] ∧ parts.entries? = some [('z', 3), ('a', 4), ('m', 0)] ∧
      table.get? 'z' = some 3 ∧ (table.offerAll [('z', 5), ('b', 2)]).get? 'z' = some 3 ∧
      table.get? 'm' = some 0 ∧ 0 ≠ 1 ∧
      (Parts.bind 'm' 1).run parts = (.error (.sizeMismatch 'm' 0 1), parts) := by
  intro offers table parts
  obtain ⟨-, keys, -, get?, -, stays, -, -, order, entries, -, refused⟩ := first_offer_binds offers
  have first : table.get? 'z' = some 3 := get? 'z'
  have zero : table.get? 'm' = some 0 := get? 'm'
  exact ⟨order.trans keys, entries, first, stays [('z', 5), ('b', 2)] 'z' 3 first, zero, by decide,
    (refused 'm' 1 0 zero (by decide)).2.2⟩

end Einsum.SizeTable
