import FlatQuery.Location

/-! Why a submission cannot be converted. -/

namespace FlatQuery

inductive Problem where
  | noOperation
  | severalOperations (count : Nat) (names : List String)
  | unknownOperation (name : String)
  | malformed (message : String) (location? : Option Location)
  | unknownFragment (name : String) (location : Location)
  | recursiveFragment (name : String) (location : Location)
  | undefinedVariable (name : String) (location : Location)
  | missingValue (name : String) (location : Location)
  | subscription (location : Location)
deriving DecidableEq

namespace Problem

inductive Family where
  | input
  | document
  | fragment
deriving DecidableEq

def family : Problem → Family
  | noOperation | severalOperations .. | unknownOperation _ | subscription _ => .input
  | malformed .. | recursiveFragment .. | undefinedVariable .. | missingValue .. => .document
  | unknownFragment .. => .fragment

def location? : Problem → Option Location
  | malformed _ location? => location?
  | unknownFragment _ location | recursiveFragment _ location | undefinedVariable _ location
  | missingValue _ location | subscription location => some location
  | noOperation | severalOperations .. | unknownOperation _ => none

def message : Problem → String
  | noOperation => "Must provide an operation."
  | severalOperations count names =>
    "Feature 'Multiple Query Execution' is not enabled, so can execute 1 operation only, but " ++
      count.repr ++ " operations were submitted ('" ++ "', '".intercalate names ++ "')"
  | unknownOperation name => "No operation with name '" ++ name ++ "' was submitted."
  | malformed message _ => message
  | unknownFragment name _ => "No fragment with name '" ++ name ++ "' has been defined"
  | recursiveFragment name _ => "Fragment '" ++ name ++ "' cannot reference itself"
  | undefinedVariable name _ => "Variable '$" ++ name ++ "' has not been defined by the operation"
  | missingValue name _ => "No value was provided for non-null variable '$" ++ name ++ "'"
  | subscription _ => "Subscription operations are not supported"

end Problem

end FlatQuery
