import FlatQuery.Document.Value
import FlatQuery.Location

/-! GraphQL documents: operations and fragments, each with a tree of selections. A selection
set holds at least one selection. -/

namespace FlatQuery.Document

abbrev Arguments := List (Name × Value)

structure Directive where
  name : Name
  arguments : Arguments
  location : Location

/-- A field without what is selected below it. Its location is that of its alias, if it has one. -/
structure Field where
  location : Location
  alias? : Option Name
  name : Name
  arguments : Arguments
  directives : List Directive

mutual

inductive Selection where
  | leaf (field : Field)
  | branch (field : Field) (body : SelectionSet)
  | spread (fragment : Name) (location : Location) (directives : List Directive)
  | inline (condition? : Option Name) (directives : List Directive) (body : SelectionSet)

inductive SelectionSet where
  | single (selection : Selection)
  | cons (selection : Selection) (rest : SelectionSet)

end

namespace SelectionSet

def toList : SelectionSet → List Selection
  | single selection => [selection]
  | cons selection rest => selection :: rest.toList

end SelectionSet

mutual

def Selection.size : Selection → Nat
  | .leaf _ => 1
  | .branch _ body => 1 + body.size
  | .spread .. => 1
  | .inline _ _ body => 1 + body.size

def SelectionSet.size : SelectionSet → Nat
  | .single selection => 1 + selection.size
  | .cons selection rest => 1 + selection.size + rest.size

end

structure Declaration where
  name : Name
  type : TypeRef
  default? : Option Value

inductive Kind where
  | query | mutation | subscription
deriving DecidableEq

structure Operation where
  name? : Option Name
  kind : Kind
  location : Location
  declarations : List Declaration
  selections : SelectionSet

def Operation.id (operation : Operation) : String :=
  String.ofList (Decimal.ofNat operation.location.line ++ '-' :: Decimal.ofNat operation.location.column)

structure Fragment where
  name : Name
  condition : Name
  selections : SelectionSet

inductive Definition where
  | operation (value : Operation)
  | fragment (value : Fragment)

end FlatQuery.Document

namespace FlatQuery

structure Document where
  definitions : List Document.Definition

namespace Document

def operations (document : Document) : List Operation :=
  document.definitions.filterMap fun
    | .operation value => some value
    | .fragment _ => none

def fragments (document : Document) : List Fragment :=
  document.definitions.filterMap fun
    | .operation _ => none
    | .fragment value => some value

end Document

end FlatQuery
