import FlatQuery.Embedding
import FlatQuery.Request
import FlatQuery.Settings
import FlatQuery.Term.OfJson

/-! The scope of an operation: what its variables stand for, and the terms of the values
that are written in it and in the fragments it uses. -/

namespace FlatQuery

namespace Document.Value

mutual

def toJson : Value → Json
  | .reference _ => .null
  | .null => .null
  | .bool value => .bool value
  | .int value => .integer value
  | .float value => if value.isFinite then .real value else .null
  | .string value => .string value
  | .enum name => .string name.text
  | .list items => .array (itemsToJson items)
  | .object members => .object (membersToJson members)

def itemsToJson : List Value → List Json
  | [] => []
  | item :: items => toJson item :: itemsToJson items

def membersToJson : List (Name × Value) → List (String × Json)
  | [] => []
  | (key, value) :: members => (key.text, toJson value) :: membersToJson members

end

end Document.Value

/-- The term of a variable of an operation: the value that was submitted, else the default,
else null if its type allows that. The first declaration of a name counts. -/
def Request.variableTerm (request : Request) (operation : Document.Operation) (name : String)
    (location : Location) : Except Problem Term :=
  match operation.declarations.find? (·.name.text = name) with
  | none => .error (.undefinedVariable name location)
  | some declaration =>
    match Json.get? name request.values with
    | some value => .ok (.ofJson value)
    | none =>
      match declaration.default? with
      | some value => .ok (.ofJson value.toJson)
      | none => if declaration.type.isNonNull then .error (.missingValue name location) else .ok .null

def isExpressionName (name : String) : Bool := name.toList.head? = some '_'

structure Scope where
  settings : Settings
  request : Request
  operation : Document.Operation

namespace Scope

def variableTerm (scope : Scope) (name : Name) (location : Location) : Except Problem Term :=
  if scope.settings.expressionVariables && isExpressionName name.text then .ok (.expression name.text)
  else scope.request.variableTerm scope.operation name.text location

def stringTerm (scope : Scope) (literal : String) : Term :=
  if scope.settings.embeddedFields then Embedding.term literal else .string literal

mutual

/-- The term of a value. `location` is what a problem with a variable points to. -/
def term (scope : Scope) (location : Location) : Document.Value → Except Problem Term
  | .reference name => scope.variableTerm name location
  | .null => .ok .null
  | .bool value => .ok (.bool value)
  | .int value => .ok (.int value)
  | .float value => .ok (.float value)
  | .string value => .ok (scope.stringTerm value)
  | .enum name => .ok (.enum name.text)
  | .list items => (scope.terms location items).map .list
  | .object members => (scope.arguments location members).map .object

def terms (scope : Scope) (location : Location) : List Document.Value → Except Problem (List Term)
  | [] => .ok []
  | item :: items => do
    let first ← scope.term location item
    let rest ← scope.terms location items
    return first :: rest

def arguments (scope : Scope) (location : Location) : Document.Arguments → Except Problem Arguments
  | [] => .ok []
  | (key, value) :: members => do
    let first ← scope.term location value
    let rest ← scope.arguments location members
    return (key.text, first) :: rest

end

def directive (scope : Scope) (directive : Document.Directive) : Except Problem Directive := do
  return ⟨directive.name.text, ← scope.arguments directive.location directive.arguments⟩

def directives (scope : Scope) : List Document.Directive → Except Problem (List Directive)
  | [] => .ok []
  | first :: rest => do
    let first ← scope.directive first
    let rest ← scope.directives rest
    return first :: rest

def step (scope : Scope) (field : Document.Field) : Except Problem Step := do
  let arguments ← scope.arguments field.location field.arguments
  let directives ← scope.directives field.directives
  return ⟨field.name.text, arguments, field.alias?.map Name.text, directives⟩

end Scope

end FlatQuery
