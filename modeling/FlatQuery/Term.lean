import FlatQuery.Decimal.Double

/-! The language of flat queries: a path is a list of steps from a root field down to
a leaf, and a step carries arguments, an alias and directives. -/

namespace FlatQuery

mutual

/-- A value of an argument. An expression and a call are evaluated by whoever runs the query. -/
inductive Term where
  | null
  | bool (value : Bool)
  | int (value : Int)
  | float (value : Decimal.Double)
  | string (value : String)
  | enum (name : String)
  | list (items : List Term)
  | object (members : List (String × Term))
  | expression (name : String)
  | call (step : Step)

structure Step where
  name : String
  arguments : List (String × Term)
  alias? : Option String
  directives : List Directive

structure Directive where
  name : String
  arguments : List (String × Term)

end

abbrev Arguments := List (String × Term)

abbrev Path := List Step

namespace Step

def plain (name : String) : Step := ⟨name, [], none, []⟩

def applied (name : String) (arguments : Arguments) : Step := ⟨name, arguments, none, []⟩

def prepend (directives : List Directive) (step : Step) : Step :=
  { step with directives := directives ++ step.directives }

end Step

end FlatQuery
