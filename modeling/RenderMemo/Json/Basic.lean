namespace RenderMemo

-- A JSON value. A number is an integer divided by a power of ten, and it was written as an integer
-- exactly if the power is zero, where minus zero does not count as one. The members of an object keep
-- their order.
inductive Json where
  | null
  | bool (value : Bool)
  | num (mantissa : Int) (places : Nat)
  | str (text : String)
  | arr (items : List Json)
  | obj (members : List (String × Json))
deriving Repr, Inhabited

namespace Json

def int (value : Int) : Json := .num value 0

def nat (value : Nat) : Json := .int value

def get? (key : String) : Json → Option Json
  | .obj members => members.lookup key
  | _ => none

end Json

end RenderMemo
