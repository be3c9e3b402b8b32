/-! Documents: trees of records, lists and plain values, in which settings and plans are kept.
A record is written by field name. It is read by field name, when other fields do not
matter but no field that is read is given twice, or from a list by the place of the field. -/

namespace Einsum

inductive Document where
  | null
  | bool (b : Bool)
  | integer (value : Int)
  /-- A number written with a fraction. -/
  | decimal (mantissa : Int) (places : Nat)
  | text (s : String)
  | list (items : List Document)
  | record (fields : List (String × Document))
deriving Inhabited

namespace Document

/-- No field with one of these names is given twice. -/
def isSingle (names : List String) (fields : List (String × Document)) : Bool :=
  names.all fun name => fields.countP (·.1 == name) ≤ 1

def named? (names : List String) (fields : List (String × Document)) : Option (List Document) :=
  if isSingle names fields then names.mapM fun name => fields.lookup name else none

/-- The fields of a record that has each of these fields once, or of a list that has these
fields in this order. -/
def fields? (names : List String) : Document → Option (List Document)
  | .record fields => named? names fields
  | .list items => if items.length = names.length then some items else none
  | _ => none

/-- The fields of a record in which any of these fields may be left out but none given twice and
no others are allowed; in a list the last ones may be left out. -/
def optionalFields? (names : List String) : Document → Option (List (Option Document))
  | .record fields =>
    if isSingle names fields && fields.all fun (name, _) => names.contains name then
      some (names.map fun name => fields.lookup name)
    else none
  | .list items =>
    if items.length ≤ names.length then
      some ((List.range names.length).map fun place => items[place]?)
    else none
  | _ => none

end Document

structure Codec (α : Type) where
  encode : α → Document
  decode : Document → Option α

namespace Codec

variable {α β : Type}

def bool : Codec Bool where
  encode := .bool
  decode
    | .bool b => some b
    | _ => none

/-- Whole numbers below `2^64`, written without a fraction. -/
def nat : Codec Nat where
  encode n := .integer n
  decode
    | .integer (.ofNat n) => if n < UInt64.size then some n else none
    | _ => none

def char : Codec Char where
  encode c := .text (String.singleton c)
  decode
    | .text s =>
      match s.toList with
      | [c] => some c
      | _ => none
    | _ => none

def list (item : Codec α) : Codec (List α) where
  encode items := .list (items.map item.encode)
  decode
    | .list items => items.mapM item.decode
    | _ => none

def pair (first : Codec α) (second : Codec β) : Codec (α × β) where
  encode p := .list [first.encode p.1, second.encode p.2]
  decode
    | .list [a, b] => do return (← first.decode a, ← second.decode b)
    | _ => none

end Codec

end Einsum
