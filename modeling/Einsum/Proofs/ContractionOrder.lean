import Einsum.Proofs.Pools
import Einsum.Proofs.Values

/-! Contracting tensors in any order.
A workspace keeps a pool together with the values of its tensors. A run may contract any two
live tensors at any time; a label is summed as soon as neither the output nor another live
tensor has it, so that all runs keep what the live tensors denote. -/

namespace Einsum

structure Workspace (α : Type) where
  pool : Pool
  /-- The values of the tensors made so far, by number. -/
  tensors : List (Tensor α)

namespace Workspace

variable {α : Type}

def start (terms : List Labels) (tensors : List (Tensor α)) : Workspace α := ⟨.ofTerms terms, tensors⟩

def tensor (w : Workspace α) (id : Nat) : Except Error (Tensor α) :=
  match w.tensors[id]? with
  | some t => .ok t
  | none => .error (.fault (.missingTensor id))

/-- Puts the contraction of two tensors in their place. -/
def contract [Zero α] [Add α] [Mul α] (output : Labels) (w : Workspace α) (a b : Nat) :
    Except Error (Workspace α) := do
  let pairing ← w.pool.pairing a b output
  let axes := ContractionAxes.ofPairing (← w.pool.labels a) (← w.pool.labels b) pairing
  let made ← (← w.tensor a).contract (← w.tensor b) axes
  let (_, pool) ← w.pool.contract a b pairing.result
  return ⟨pool, w.tensors ++ [made]⟩

/-- Runs that contract two different live tensors at every step. -/
inductive Reaches [Zero α] [Add α] [Mul α] (output : Labels) (w : Workspace α) : Workspace α → Prop
  | refl : Reaches output w w
  | step {v v' : Workspace α} {a b : Nat} (run : Reaches output w v) (ha : a ∈ v.pool.live)
      (hb : b ∈ v.pool.live) (ne : a ≠ b) (contract : v.contract output a b = .ok v') :
    Reaches output w v'

def sources (w : Workspace α) : List Source := w.pool.atHand id

/-- The product of all live tensors, summed over the labels that they carry and the output
lacks. -/
def meaning [CommSemiring α] (sizes : SizeTable) (output : Labels) (w : Workspace α) :
    Assignment Label → α :=
  sumOfProducts sizes.size output (factorsOf w.tensors w.sources)

/-- Live tensors carry distinct labels and have the shapes that these tell. -/
structure Valid (sizes : SizeTable) (w : Workspace α) : Prop where
  pool : w.pool.Valid
  length : w.tensors.length = w.pool.made.length
  nodup : ∀ id ∈ w.pool.live, (w.pool.labelsOf id).Nodup
  held : Held sizes.size w.tensors w.sources

theorem start_valid {sizes : SizeTable} {terms : List Labels} {tensors : List (Tensor α)}
    (nodup : ∀ labels ∈ terms, labels.Nodup)
    (shapes : tensors.map (·.shape) = terms.map sizes.shape) :
    (start terms tensors).Valid sizes where
  pool := Pool.ofTerms_valid terms
  length := by simpa [start, Pool.ofTerms] using congrArg List.length shapes
  nodup id live := by
    have hlt : id < terms.length := List.mem_range.1 live
    simpa [start, Pool.labelsOf_ofTerms, hlt] using nodup _ (List.getElem_mem hlt)
  held source hm := by
    obtain ⟨id, live, rfl⟩ := List.mem_map.1 hm
    have hlt : id < terms.length := List.mem_range.1 live
    have shape := congrArg (fun shapes => shapes[id]?) shapes
    simp only [List.getElem?_map, List.getElem?_eq_getElem hlt, Option.map_some] at shape
    obtain ⟨t, ht, hs⟩ := Option.map_eq_some_iff.1 shape
    refine ⟨t, ht, hs.trans ?_⟩
    simp [start, Pool.labelsOf_ofTerms, hlt, SizeTable.shape]

section Step

variable {sizes : SizeTable} {w w' : Workspace α} {a b : Nat}

theorem Valid.tensor_eq (valid : w.Valid sizes) (live : a ∈ w.pool.live) :
    ∃ t, w.tensor a = .ok t ∧ w.tensors[a]? = some t ∧
      t.shape = sizes.shape (w.pool.labelsOf a) := by
  obtain ⟨t, ht, shape⟩ := valid.held ⟨a, w.pool.labelsOf a⟩ (List.mem_map_of_mem live)
  exact ⟨t, by simp [tensor, ht], ht, shape⟩

theorem Valid.labels_eq (valid : w.Valid sizes) (live : a ∈ w.pool.live) :
    w.pool.labels a = .ok (w.pool.labelsOf a) := valid.pool.labels_eq live

theorem Valid.contract_eq [Zero α] [Add α] [Mul α] (valid : w.Valid sizes)
    (ha : a ∈ w.pool.live) (hb : b ∈ w.pool.live) {output : Labels} {pairing : Pairing}
    {left right : Tensor α} (hp : w.pool.pairing a b output = .ok pairing)
    (hl : w.tensor a = .ok left) (hr : w.tensor b = .ok right) :
    w.contract output a b = (do
      let made ← left.contract right
        (.ofPairing (w.pool.labelsOf a) (w.pool.labelsOf b) pairing)
      return ⟨w.pool.contracted a b pairing.result, w.tensors ++ [made]⟩) := by
  rw [contract, hp, valid.labels_eq ha, valid.labels_eq hb, hl, hr]
  simp only [bind, Except.bind, valid.pool.contract_eq ha hb]

variable [CommSemiring α]

/-- What a contraction of two tensors leaves: a new tensor whose axes are the labels of
their pairing, in that order. -/
def Makes (sizes : SizeTable) (output : Labels) (w : Workspace α) (a b : Nat) (w' : Workspace α) :
    Prop :=
  ∃ pairing left right made,
    w.pool.pairing a b output = .ok pairing ∧ w.tensor a = .ok left ∧ w.tensor b = .ok right ∧
    w'.tensors = w.tensors ++ [made] ∧
    w'.pool.labels w.tensors.length = .ok pairing.result ∧
    made.shape = sizes.shape pairing.result ∧
    made.entry pairing.result = marginal sizes.size pairing.summed fun x =>
      left.entry (w.pool.labelsOf a) x * right.entry (w.pool.labelsOf b) x

theorem Valid.contract (valid : w.Valid sizes) (ha : a ∈ w.pool.live) (hb : b ∈ w.pool.live)
    (ne : a ≠ b) {output : Labels} (h : w.contract output a b = .ok w') :
    w'.Valid sizes ∧ w.Makes sizes output a b w' ∧
      w'.meaning sizes output = w.meaning sizes output := by
  obtain ⟨keep, hp, kept⟩ := valid.pool.exists_pairing ha hb output
  obtain ⟨left, hl, hla, leftShape⟩ := valid.tensor_eq ha
  obtain ⟨right, hr, hrb, rightShape⟩ := valid.tensor_eq hb
  rw [valid.contract_eq ha hb hp hl hr] at h
  obtain ⟨made, hmade, h⟩ := bind_eq_ok_iff.1 h
  obtain rfl := Except.ok.inj h
  have move := valid.pool.move ha hb ne valid.nodup kept rfl id id (fun _ _ => rfl) 0
  rw [id_eq, ← valid.length] at move
  have reads : [a, b].mapM (fun id => w.tensors[id]?) = some [left, right] := by simp [hla, hrb]
  -- the entries of the new tensor, from those of the two sides
  let sides : List (Factor α) := [⟨w.pool.labelsOf a, left⟩, ⟨w.pool.labelsOf b, right⟩]
  have fits : ∀ factor ∈ sides, factor.Fits sizes.size := by
    simp [sides, Factor.Fits, leftShape, rightShape, SizeTable.shape]
  have relabels : Action.Relabels _ (sides.map (·.labels)) _ :=
    .contract a b keep 0 (valid.nodup a ha) (valid.nodup b hb)
  have shape := relabels.shape_of_apply fits hmade
  have entry := relabels.entry_of_apply fits hmade
  simp only [sides, List.map_cons, List.map_nil, List.prod_cons, List.prod_nil, mul_one] at entry
  -- the pool after the contraction
  let pairing := Pairing.split (w.pool.labelsOf a) (w.pool.labelsOf b) keep
  have valid' := valid.pool.contracted a b pairing.result
  have length : (w.tensors ++ [made]).length = w.pool.made.length + 1 := by simp [valid.length]
  have live : w.pool.made.length ∈ (w.pool.contracted a b pairing.result).live := by
    simp [Pool.contracted]
  have labels := (valid'.labels_eq live).trans (congrArg _ (Pool.labelsOf_contracted_length ..))
  have nodup := move.nodup_labels fun source hm => by
    obtain ⟨id, live, rfl⟩ := List.mem_map.1 hm
    exact valid.nodup id live
  exact ⟨⟨valid', length.trans (Pool.length_made_contracted ..).symm,
      fun id live => nodup ⟨id, _⟩ (List.mem_map_of_mem live),
      move.held_append valid.held reads hmade⟩,
    ⟨_, left, right, made, hp, hl, hr, rfl, valid.length ▸ labels, shape, entry⟩,
    (move.entry valid.held reads hmade).symm⟩

theorem Valid.exists_contract (valid : w.Valid sizes) (ha : a ∈ w.pool.live)
    (hb : b ∈ w.pool.live) (output : Labels) :
    ∃ pairing, w.pool.pairing a b output = .ok pairing ∧
      (isAddressable (sizes.shape pairing.result) → ∃ w', w.contract output a b = .ok w') := by
  obtain ⟨keep, hp, -⟩ := valid.pool.exists_pairing ha hb output
  obtain ⟨left, hl, -, leftShape⟩ := valid.tensor_eq ha
  obtain ⟨right, hr, -, rightShape⟩ := valid.tensor_eq hb
  refine ⟨_, hp, fun addressable => ?_⟩
  have named := ContractionAxes.named_ofPairing keep (valid.nodup a ha) (valid.nodup b hb)
  obtain ⟨made, hmade, -⟩ := Tensor.contract_spec named leftShape rightShape
    (valid.nodup a ha) (valid.nodup b hb) addressable
  rw [valid.contract_eq ha hb hp hl hr, hmade]
  exact ⟨_, rfl⟩

end Step

variable [CommSemiring α] {sizes : SizeTable} {w : Workspace α} {output : Labels}

theorem Reaches.valid {v : Workspace α} (run : Reaches output w v) (valid : w.Valid sizes) :
    v.Valid sizes ∧ v.meaning sizes output = w.meaning sizes output := by
  induction run with
  | refl => exact ⟨valid, rfl⟩
  | step run ha hb ne contract ih =>
    obtain ⟨valid, same⟩ := ih
    obtain ⟨valid', -, same'⟩ := valid.contract ha hb ne contract
    exact ⟨valid', same'.trans same⟩

/-- Any contractions of live tensors, in any order, keep what these denote. Any two different
live tensors can be contracted next, unless the new tensor is too large, and its axes are the
labels of their pairing. -/
theorem contracts_in_any_order (sizes : SizeTable) {terms : List Labels}
    {tensors : List (Tensor α)} (nodup : ∀ labels ∈ terms, labels.Nodup)
    (shapes : tensors.map (·.shape) = terms.map sizes.shape)
    (run : Reaches output (start terms tensors) w) :
    w.meaning sizes output = (start terms tensors).meaning sizes output ∧
    ∀ a ∈ w.pool.live, ∀ b ∈ w.pool.live, a ≠ b →
      (∃ pairing, w.pool.pairing a b output = .ok pairing ∧
        (isAddressable (sizes.shape pairing.result) → ∃ w', w.contract output a b = .ok w')) ∧
      ∀ w', w.contract output a b = .ok w' →
        w.Makes sizes output a b w' ∧
          w'.meaning sizes output = w.meaning sizes output := by
  obtain ⟨valid, same⟩ := run.valid (start_valid nodup shapes)
  exact ⟨same, fun a ha b hb ne => ⟨valid.exists_contract ha hb output,
    fun w' h => (valid.contract ha hb ne h).2⟩⟩

/-- The chain `ab,bc,cd` may begin with its last two matrices, and the first one then meets
their product. -/
theorem contracts_in_any_order_chain :
    let sizes : SizeTable := ⟨[('a', 2), ('b', 2), ('c', 2), ('d', 1)]⟩
    let terms : List Labels := [['a', 'b'], ['b', 'c'], ['c', 'd']]
    let square : Tensor Nat := ⟨[2, 2], #[1, 2, 3, 4], rfl⟩
    let w := start terms [square, square, ⟨[2, 1], #[5, 6], rfl⟩]
    ∃ v w', w.contract ['a', 'd'] 1 2 = .ok v ∧ v.pool.live = [0, 3] ∧
      v.contract ['a', 'd'] 0 3 = .ok w' ∧
      v.meaning sizes ['a', 'd'] = w.meaning sizes ['a', 'd'] ∧
      w'.meaning sizes ['a', 'd'] = w.meaning sizes ['a', 'd'] := by
  intro sizes terms square w
  let v : Workspace Nat :=
    ⟨w.pool.contracted 1 2 ['b', 'd'], w.tensors ++ [⟨[2, 1], #[17, 39], rfl⟩]⟩
  have nodup : ∀ labels ∈ terms, labels.Nodup := by decide
  have shapes : w.tensors.map (·.shape) = terms.map sizes.shape := rfl
  have first : w.contract ['a', 'd'] 1 2 = .ok v := rfl
  have run : Reaches ['a', 'd'] (start terms w.tensors) v :=
    .step .refl (by decide) (by decide) (by decide) first
  have split : v.pool.pairing 0 3 ['a', 'd'] = .ok ⟨[], ['b'], ['a'], ['d']⟩ := by decide
  obtain ⟨same, next⟩ := contracts_in_any_order sizes nodup shapes run
  obtain ⟨⟨pairing, hp, made⟩, keeps⟩ := next 0 (by decide) 3 (by decide) (by decide)
  obtain rfl := Except.ok.inj (split.symm.trans hp)
  obtain ⟨w', h⟩ := made (by decide)
  exact ⟨v, w', first, rfl, h, same, (keeps w' h).2.trans same⟩

end Workspace

end Einsum
