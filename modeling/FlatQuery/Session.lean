import FlatQuery.Batch

/-! Conversions and the feedback they leave. A conversion that fails gives empty queries and
one entry of feedback, so nothing that is incomplete gets out. -/

namespace FlatQuery

def Batch.ofSubmission (settings : Settings) (submission : Submission)
    (parse : Document.Parser := Document.parse) : Except Failure Batch := do
  let request ← Request.ofSubmission submission parse
  (Batch.ofRequest settings request).mapError .problem

structure Feedback where
  message : String
  location? : Option Location
deriving DecidableEq

def Problem.feedback (problem : Problem) : Feedback := ⟨problem.message, problem.location?⟩

structure Session where
  settings : Settings
  feedback : List Feedback

namespace Session

def start (settings : Settings) : Session := ⟨settings, []⟩

def add (entry : Feedback) (session : Session) : Session :=
  { session with feedback := session.feedback ++ [entry] }

def clear (session : Session) : Session := { session with feedback := [] }

def hasFeedback (session : Session) : Bool := !session.feedback.isEmpty

/-- Converts a submission. A torn block string has no result. -/
def convert (submission : Submission) (session : Session)
    (parse : Document.Parser := Document.parse) : Option (Session × QueryPair) :=
  match Batch.ofSubmission session.settings submission parse with
  | .ok batch => some (session, .ofBatch session.settings batch)
  | .error (.problem problem) => some (session.add problem.feedback, .empty)
  | .error .torn => none

end Session

end FlatQuery
