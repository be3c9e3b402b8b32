/-! Keyword options of a loosely typed call, before anyone has looked at their names. -/

namespace Einsum

inductive Keyword.Value where
  | bool (b : Bool)
  | text (s : String)
  | int (i : Int)
deriving DecidableEq, Repr

structure Keyword where
  name : String
  value : Keyword.Value
deriving DecidableEq, Repr

/-- The value as messages show it: text stands in single quotes. -/
def Keyword.Value.shown : Keyword.Value → String
  | .bool true => "true"
  | .bool false => "false"
  | .text s => "'" ++ s ++ "'"
  | .int i => toString i

end Einsum
