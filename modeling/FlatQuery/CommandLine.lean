import FlatQuery.Json.Printer
import FlatQuery.Session

/-! The command line without its input and output: from the text of a payload and the
environment to an exit status and what is printed. -/

namespace FlatQuery.CommandLine

structure Payload where
  query : String
  values : List (String × Json)
  operationName? : Option String

namespace Payload

def string? : Json.Written → Option String
  | .scalar (.string pieces) => Json.Piece.text? pieces
  | _ => none

def stringOrNull? : Json.Written → Option (Option String)
  | .scalar .null => some none
  | written => (string? written).map some

def values? : Json.Written → Option (List (String × Json))
  | .scalar .null => some []
  | written =>
    match written.value? (Json.nestingLimit - 1) with
    | some (.object members) => some members
    | _ => none

def ofParts? (query values operationName : Option Json.Written) : Option Payload := do
  let query ← query
  return { query := ← string? query
           values := ← values.elim (some []) values?
           operationName? := ← operationName.elim (some none) stringOrNull? }

def ofWritten? : Json.Written → Option Payload
  | .array items => if 3 < items.length then none else ofParts? items[0]? items[1]? items[2]?
  | written => do
    let members ← written.members?
    ofParts? (← Json.Written.single? "query" members) (← Json.Written.single? "variables" members)
      (← Json.Written.single? "operationName" members)

def parse? (text : String) : Option Payload := (Json.Written.ofChars? text.toList).bind ofWritten?

end Payload

structure Outcome where
  status : UInt8
  output : String

def converted : UInt8 := 0
def rejected : UInt8 := 1
def unreadable : UInt8 := 2
def aborted : UInt8 := 101

def locationJson (location : Location) : Json :=
  .object [("line", .integer location.line), ("column", .integer location.column)]

def feedbackJson (entry : Feedback) : Json :=
  .object (("message", .string entry.message) ::
    (entry.location?.map fun location => ("extensions", .object [("location", locationJson location)])).toList)

def resultJson (pair : QueryPair) (feedback : List Feedback) : Json :=
  .object [("requestedFieldQuery", .string pair.requested), ("executableFieldQuery", .string pair.executable),
    ("errors", .array (feedback.map feedbackJson))]

/-- Converts the payload that could be read, if any, under the settings of the environment. -/
def run (lookup : String → Option String) (input? : Option String) : Outcome :=
  match input?.bind Payload.parse? with
  | none => ⟨unreadable, ""⟩
  | some payload =>
    let submission : Submission :=
      ⟨payload.query, payload.values, Settings.severalOfLookup lookup, payload.operationName?⟩
    match (Session.start (.ofLookup lookup)).convert submission with
    | none => ⟨aborted, ""⟩
    | some (session, pair) =>
      ⟨if session.hasFeedback then rejected else converted,
        (resultJson pair session.feedback).pretty ++ "\n"⟩

end FlatQuery.CommandLine
