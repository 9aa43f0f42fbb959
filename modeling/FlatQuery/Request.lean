import FlatQuery.Document.Grammar
import FlatQuery.Json.Basic
import FlatQuery.Problem
import FlatQuery.Report
import FlatQuery.Text.Blank

/-! Requests: the operations of a submitted document that are to run, with the fragments and
the values of variables at hand. -/

namespace FlatQuery

open Document (Operation Fragment)

/-- What a client submits: a document, values of variables by name, and which operation is
meant. `several` allows more than one operation to run. -/
structure Submission where
  text : String
  values : List (String × Json)
  several : Bool
  operationName? : Option String

structure Request where
  operations : List Operation
  fragments : List Fragment
  values : List (String × Json)

inductive Failure where
  | torn
  | problem (cause : Problem)
deriving DecidableEq

namespace Request

def placeholder : String := "__ALL"

def isPlaceholder (name : String) : Bool :=
  name.toList.map Char.toLower = placeholder.toList.map Char.toLower

def isNamed (name : String) (operation : Operation) : Bool :=
  operation.name?.map Name.text = some name

def meant (several : Bool) (name? : Option String) (operations : List Operation) : List Operation :=
  match name? with
  | none => operations
  | some name =>
    if several && isPlaceholder name then operations.filter (!isNamed name ·)
    else operations.filter (isNamed name)

def isRunnable (operation : Operation) : Bool := operation.kind ≠ .subscription

def runnableNames (operations : List Operation) : List String :=
  (operations.filter isRunnable).map fun operation => (operation.name?.map Name.text).getD ""

def nothingMeant (several : Bool) : Option String → Problem
  | none => .noOperation
  | some name => if several && isPlaceholder name then .noOperation else .unknownOperation name

/-- The operations to run. Without a name and without leave to run several there may be one only. -/
def select (several : Bool) (name? : Option String) (operations : List Operation) :
    Except Problem (List Operation) :=
  let names := runnableNames operations
  if name?.isNone && !several && 1 < names.length then .error (.severalOperations names.length names)
  else
    match meant several name? operations with
    | [] => .error (nothingMeant several name?)
    | chosen =>
      match chosen.find? (!isRunnable ·) with
      | some operation => .error (.subscription operation.location)
      | none => .ok chosen

def ofDocument (document : Document) (submission : Submission) : Except Problem Request := do
  let operations ← select submission.several submission.operationName? document.operations
  return ⟨operations, document.fragments, submission.values⟩

def malformed (location : Location) (details : String) : Problem :=
  let message := Report.message location details
  .malformed (String.ofList message) (Report.location? message)

/-- A text of white space only asks for nothing. -/
def ofSubmission (submission : Submission) (parse : Document.Parser := Document.parse) :
    Except Failure Request :=
  if (Text.trim submission.text.toList).isEmpty then .error (.problem .noOperation)
  else
    match parse submission.text with
    | .error .torn => .error .torn
    | .error (.malformed location details) => .error (.problem (malformed location details))
    | .ok document => (ofDocument document submission).mapError .problem

def queries (request : Request) : List Operation :=
  request.operations.filter (·.kind = .query)

def mutations (request : Request) : List Operation :=
  request.operations.filter (·.kind = .mutation)

def fragment? (request : Request) (name : Name) : Option Fragment :=
  request.fragments.reverse.find? (·.name = name)

def defines (request : Request) (name : String) : Bool :=
  request.fragments.any (·.name.text = name)

def fragmentNames (request : Request) : List String :=
  ((request.fragments.map (·.name.text)).mergeSort fun a b => a ≤ b).eraseReps

end Request

end FlatQuery
