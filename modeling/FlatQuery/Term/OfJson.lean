import FlatQuery.Json.Basic
import FlatQuery.Term

/-! JSON values as terms. -/

namespace FlatQuery.Term

/-- An integer of more than 63 bits is taken as a double. -/
def ofInteger (value : Int) : Term :=
  if Decimal.fitsSigned value then int value else float (.ofInt value)

mutual

def ofJson : Json → Term
  | .null => null
  | .bool value => bool value
  | .integer value => ofInteger value
  | .real value => float value
  | .string value => string value
  | .array items => list (ofItems items)
  | .object members => object (ofMembers members)

def ofItems : List Json → List Term
  | [] => []
  | item :: items => ofJson item :: ofItems items

def ofMembers : List (String × Json) → List (String × Term)
  | [] => []
  | (key, value) :: members => (key, ofJson value) :: ofMembers members

end

end FlatQuery.Term
