import FlatQuery.Decimal.Double
import FlatQuery.Text.Name

/-! Values and types as they are written in a GraphQL document. -/

namespace FlatQuery.Document

/-- A value of an argument or a default. The members of an object are in the order of their
keys, and each key occurs once. -/
inductive Value where
  | reference (name : Name)
  | null
  | bool (value : Bool)
  | int (value : Int)
  | float (value : Decimal.Double)
  | string (value : String)
  | enum (name : Name)
  | list (items : List Value)
  | object (members : List (Name × Value))

namespace Value

def ofWord (name : Name) : Value :=
  if name.text = "true" then bool true
  else if name.text = "false" then bool false
  else if name.text = "null" then null
  else enum name

def insert (key : Name) (value : Value) : List (Name × Value) → List (Name × Value)
  | [] => [(key, value)]
  | (k, v) :: members =>
    if key = k then (key, value) :: members
    else if key.text < k.text then (key, value) :: (k, v) :: members
    else (k, v) :: insert key value members

def ofMembers (members : List (Name × Value)) : Value :=
  object (members.foldl (fun sorted member => insert member.1 member.2 sorted) [])

end Value

inductive TypeRef where
  | named (name : Name)
  | list (item : TypeRef)
  | nonNull (inner : TypeRef)

namespace TypeRef

def isNonNull : TypeRef → Bool
  | nonNull _ => true
  | _ => false

end TypeRef

end FlatQuery.Document
