import FlatQuery.Decimal.Double

/-! JSON values. The members of an object keep their order, and each key occurs once. -/

namespace FlatQuery

inductive Json where
  | null
  | bool (value : Bool)
  | integer (value : Int)
  | real (value : Decimal.Double)
  | string (value : String)
  | array (items : List Json)
  | object (members : List (String × Json))

namespace Json

def set (key : String) (value : Json) : List (String × Json) → List (String × Json)
  | [] => [(key, value)]
  | (k, v) :: members => if k = key then (k, value) :: members else (k, v) :: set key value members

def get? (key : String) (members : List (String × Json)) : Option Json :=
  (members.find? fun member => member.1 == key).map Prod.snd

end Json

end FlatQuery
