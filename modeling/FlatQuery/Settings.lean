import FlatQuery.Json.Written
import FlatQuery.Text.Blank

/-! What a conversion may do beyond the plain rules, and where these settings come from. -/

namespace FlatQuery

/-- Whether variables whose name starts with an underscore are left to be evaluated later, string
literals may call fields by a name in double braces, and the operations of a batch run one after the
other. -/
structure Settings where
  expressionVariables : Bool
  embeddedFields : Bool
  strictOrder : Bool
deriving DecidableEq, Repr

namespace Settings

def allOff : Settings := ⟨false, false, false⟩

def flag (text : String) : Bool :=
  (Text.trim text.toList).map Char.toLower = ['t', 'r', 'u', 'e']

def lookupFlag (lookup : String → Option String) (key : String) : Bool := (lookup key).any flag

def expressionVariablesKey : String := "ENABLE_VARIABLES_AS_EXPRESSIONS"

def embeddedFieldsKey : String := "ENABLE_EMBEDDABLE_FIELDS"

def strictOrderKey : String := "EXECUTE_QUERY_BATCH_IN_STRICT_ORDER"

def severalKey : String := "ENABLE_MULTIPLE_QUERY_EXECUTION"

def keys : List String := [expressionVariablesKey, embeddedFieldsKey, strictOrderKey, severalKey]

def ofLookup (lookup : String → Option String) : Settings :=
  { expressionVariables := lookupFlag lookup expressionVariablesKey
    embeddedFields := lookupFlag lookup embeddedFieldsKey
    strictOrder := lookupFlag lookup strictOrderKey }

def severalOfLookup (lookup : String → Option String) : Bool := lookupFlag lookup severalKey

def writtenFlag? : Json.Written → Option Bool
  | .scalar (.bool value) => some value
  | _ => none

def memberFlag? (key : String) (members : List (String × Json.Written)) : Option Bool := do
  match ← Json.Written.single? key members with
  | none => return false
  | some written => writtenFlag? written

def ofFlags? : List Bool → Option Settings
  | [] => some allOff
  | [a] => some ⟨a, false, false⟩
  | [a, b] => some ⟨a, b, false⟩
  | [a, b, c] => some ⟨a, b, c⟩
  | _ => none

/-- Settings from JSON: an object with a member for each flag, or an array of flags in order.
Flags that are missing are off, and other members of an object mean nothing. -/
def ofJson? (text : String) : Option Settings := do
  match ← Json.Written.ofChars? text.toList with
  | .array items => ofFlags? (← items.mapM writtenFlag?)
  | written =>
    let members ← written.members?
    return { expressionVariables := ← memberFlag? "enableVariablesAsExpressions" members
             embeddedFields := ← memberFlag? "enableEmbeddableFields" members
             strictOrder := ← memberFlag? "executeQueryBatchInStrictOrder" members }

end Settings

end FlatQuery
