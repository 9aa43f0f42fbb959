import FlatQuery.Proofs.Batches
import FlatQuery.Proofs.Provenance
import Mathlib.Data.List.DropRight

/-! Sessions as a whole. A conversion fails exactly if it leaves an entry of feedback, and then its
queries are empty; otherwise they are not, since every operation that converts shows at least one
named step. So the feedback counts the failures and additions since it was cleared last. -/

namespace FlatQuery

section Visible

variable {step : Step} {path : Path} {entry : Entry} {batch : Batch}

theorem Text.intercalate_ne_nil {separator : Char} {pieces : List (List Char)} (nonempty : pieces ≠ [])
    (each : ∀ piece ∈ pieces, piece ≠ []) : [separator].intercalate pieces ≠ [] := by
  obtain ⟨first,rest,rfl⟩ := List.exists_cons_of_ne_nil nonempty
  have shown := each first (by simp)
  cases rest with
  | nil => simpa using shown
  | cons second rest => simp [shown]

def Path.Visible (path : Path) : Prop := path ≠ [] ∧ ∀ step ∈ path, step.name ≠ ""

def Entry.Visible (entry : Entry) : Prop := entry.paths ≠ [] ∧ ∀ path ∈ entry.paths, Path.Visible path

def Batch.Visible (batch : Batch) : Prop := batch ≠ [] ∧ ∀ entry ∈ batch, entry.Visible

theorem Step.chars_ne_nil (named : step.name ≠ "") : step.chars ≠ [] := by
  obtain ⟨name,arguments,alias?,directives⟩ := step
  have shown : name.toList ≠ [] := by simpa using named
  simp [chars,charsAs,shown]

theorem Path.Visible.chars_ne_nil (visible : Path.Visible path) : path.chars ≠ [] := by
  apply Text.intercalate_ne_nil
  · simpa using visible.1
  · rw [List.forall_mem_map]
    intro step inside
    exact Step.chars_ne_nil (visible.2 step inside)

theorem Entry.Visible.chars_ne_nil (visible : entry.Visible) : entry.chars ≠ [] := by
  apply Text.intercalate_ne_nil
  · simpa using visible.1
  · rw [List.forall_mem_map]
    intro path inside
    exact (visible.2 path inside).chars_ne_nil

theorem Batch.Visible.text_ne_empty (visible : batch.Visible) : batch.text ≠ "" := by
  rw [text,Ne,String.ofList_eq_empty_iff]
  apply Text.intercalate_ne_nil
  · simpa using visible.1
  · rw [List.forall_mem_map]
    intro entry inside
    exact (visible.2 entry inside).chars_ne_nil

theorem Entry.Visible.lower (visible : entry.Visible) (levels : Nat) :
    (entry.lower levels).Visible := by
  refine ⟨by simpa [Entry.lower] using visible.1,?_⟩
  rw [Entry.lower,List.forall_mem_map]
  intro path inside
  obtain ⟨nonempty,named⟩ := visible.2 path inside
  refine ⟨List.append_ne_nil_of_right_ne_nil _ nonempty,?_⟩
  rw [List.forall_mem_append]
  refine ⟨?_,named⟩
  intro step repeated
  rw [List.eq_of_mem_replicate repeated]
  decide

theorem Batch.Visible.inOrder (visible : batch.Visible) : batch.inOrder.Visible := by
  have lowered (levels : Nat) : ∀ entry ∈ lowerFrom levels batch, entry.Visible := by
    have each := visible.2
    clear visible
    induction batch generalizing levels with
    | nil => simp [lowerFrom]
    | cons first rest ih =>
      rw [List.forall_mem_cons] at each
      rw [lowerFrom,List.forall_mem_cons]
      exact ⟨each.1.lower levels,ih (levels + first.depth) each.2⟩
  refine ⟨?_,lowered 0⟩
  obtain ⟨first,rest,rfl⟩ := List.exists_cons_of_ne_nil visible.1
  rw [Batch.inOrder,lowerFrom]
  exact List.cons_ne_nil _ _

private theorem Step.carried_named : Outline.Carried (·.name ≠ "") fun _ => True where
  nil := trivial
  cross _ _ _ _ _ := trivial
  prepend _ _ _ named := named

private theorem Scope.visible_of_operationPaths_ok {scope : Scope} {paths : List Path}
    (ok : scope.operationPaths = .ok paths) : paths ≠ [] ∧ ∀ path ∈ paths, Path.Visible path := by
  obtain ⟨nonempty,full⟩ := full_of_operationPaths_ok ok
  have named : ∀ path ∈ paths, ∀ step ∈ path, step.name ≠ "" := by
    refine forall_step_of_operationPaths_ok Step.carried_named ?_ (fun _ _ _ => trivial) ok
    intro field step converts empty
    have valid := field.name.valid
    rw [← converts.name,empty] at valid
    cases valid
  exact ⟨nonempty,fun path inside => ⟨full path inside,named path inside⟩⟩

private theorem Batch.visible_of_ofRequest_ok {settings : Settings} {request : Request}
    (nonempty : request.operations ≠ []) (ok : ofRequest settings request = .ok batch) :
    batch.Visible := by
  refine ⟨ne_nil_of_ofRequest_ok nonempty ok,?_⟩
  refine forall_mem_of_ofRequest_ok (fun paths => paths ≠ [] ∧ ∀ path ∈ paths, Path.Visible path)
    ?_ ?_ ok
  · intro first second before after
    exact ⟨List.append_ne_nil_of_left_ne_nil before.1 second,
      List.forall_mem_append.mpr ⟨before.2,after.2⟩⟩
  · intro operation _ paths computed
    exact Scope.visible_of_operationPaths_ok computed

theorem Batch.visible_of_ofSubmission_ok {parse : Document.Parser} {settings : Settings}
    {submission : Submission} (ok : ofSubmission settings submission parse = .ok batch) :
    batch.Visible := by
  obtain ⟨request,accepted,gathered⟩ := ofSubmission_ok_iff.mp ok
  obtain ⟨document,_,chosen⟩ := Request.exists_document_of_ofSubmission_ok accepted
  obtain ⟨selected,_,_⟩ := Request.ofDocument_ok_iff.mp chosen
  exact visible_of_ofRequest_ok (Request.ne_nil_of_select_ok selected) gathered

theorem QueryPair.ofBatch_ne_empty (settings : Settings) (visible : batch.Visible) :
    (ofBatch settings batch).requested ≠ "" ∧ (ofBatch settings batch).executable ≠ "" := by
  refine ⟨visible.text_ne_empty,?_⟩
  rw [ofBatch]
  split
  · exact visible.inOrder.text_ne_empty
  · exact visible.text_ne_empty

end Visible

namespace Submission

/-- No block string of the text is torn. -/
def isIntact (parse : Document.Parser) (submission : Submission) : Bool :=
  match parse submission.text with
  | .error .torn => false
  | _ => true

/-- Why a submission fails: it is refused, or an operation that is to run has a problem. -/
inductive Fails (parse : Document.Parser) (settings : Settings) (submission : Submission)
    (problem : Problem) : Prop
  | refused (cause : Request.ofSubmission submission parse = .error (.problem problem))
  | unconverted (request : Request) (accepted : Request.ofSubmission submission parse = .ok request)
      (cause : Batch.ofRequest settings request = .error problem)

variable {parse : Document.Parser} {settings : Settings} {submission : Submission} {problem : Problem}

theorem fails_iff :
    submission.Fails parse settings problem ↔
      Batch.ofSubmission settings submission parse = .error (.problem problem) := by
  rw [Batch.ofSubmission]
  constructor
  · intro fails
    cases fails with
    | refused cause =>
      rw [cause]
      rfl
    | unconverted request accepted cause =>
      rw [accepted]
      exact mapError_eq_error_iff.mpr ⟨problem,cause,rfl⟩
  · intro failed
    cases accepted : Request.ofSubmission submission parse with
    | error failure =>
      rw [accepted] at failed
      cases failed
      exact .refused accepted
    | ok request =>
      rw [accepted] at failed
      obtain ⟨other,cause,same⟩ := mapError_eq_error_iff.mp failed
      cases same
      exact .unconverted request accepted cause

private theorem ofSubmission_ne_torn (intact : submission.isIntact parse = true) :
    Request.ofSubmission submission parse ≠ .error .torn := by
  unfold isIntact at intact
  unfold Request.ofSubmission
  intro torn
  split at torn
  · cases torn
  · split at torn
    next parsed =>
      rw [parsed] at intact
      cases intact
    · cases torn
    · obtain ⟨problem,_,impossible⟩ := mapError_eq_error_iff.mp torn
      cases impossible

theorem ok_or_fails (settings : Settings) (intact : submission.isIntact parse = true) :
    (∃ batch, Batch.ofSubmission settings submission parse = .ok batch) ∨
      ∃ problem, submission.Fails parse settings problem := by
  cases accepted : Request.ofSubmission submission parse with
  | error failure =>
    cases failure with
    | torn => exact absurd accepted (ofSubmission_ne_torn intact)
    | problem problem => exact .inr ⟨problem,.refused accepted⟩
  | ok request =>
    cases gathered : Batch.ofRequest settings request with
    | error problem => exact .inr ⟨problem,.unconverted request accepted gathered⟩
    | ok batch => exact .inl ⟨batch,Batch.ofSubmission_ok_iff.mpr ⟨request,accepted,gathered⟩⟩

end Submission

namespace Session

inductive Event where
  | convert (submission : Submission)
  | add (entry : Feedback)
  | clear

namespace Event

def isClear : Event → Bool
  | clear => true
  | convert _ | add _ => false

def isIntact (parse : Document.Parser) : Event → Bool
  | convert submission => submission.isIntact parse
  | add _ | clear => true

def leavesEntry (parse : Document.Parser) (settings : Settings) : Event → Bool
  | convert submission => !(Batch.ofSubmission settings submission parse).isOk
  | add _ => true
  | clear => false

end Event

def perform (parse : Document.Parser) (session : Session) : Event → Option Session
  | .convert submission => (session.convert submission parse).map Prod.fst
  | .add entry => some (session.add entry)
  | .clear => some session.clear

def run (parse : Document.Parser) (session : Session) : List Event → Option Session
  | [] => some session
  | event :: rest => (session.perform parse event).bind fun next => next.run parse rest

/-- How a conversion goes: it fails with one entry of feedback and empty queries, or it leaves the
feedback as it is and gives queries that are not empty. -/
inductive Converted (parse : Document.Parser) (submission : Submission) (old new : Session)
    (pair : QueryPair) : Prop
  | failed (problem : Problem) (cause : submission.Fails parse old.settings problem)
      (feedback : new.feedback = old.feedback ++ [⟨problem.message,problem.location?⟩])
      (requested : pair.requested = "") (executable : pair.executable = "")
  | given (sound : ∀ problem, ¬ submission.Fails parse old.settings problem)
      (feedback : new.feedback = old.feedback)
      (requested : pair.requested ≠ "") (executable : pair.executable ≠ "")

variable {parse : Document.Parser} {session old new : Session} {submission : Submission}
  {pair : QueryPair}

theorem Converted.requested_eq_empty_iff (converted : Converted parse submission old new pair) :
    pair.requested = "" ↔ ∃ entry, new.feedback = old.feedback ++ [entry] := by
  cases converted with
  | failed problem cause feedback requested executable =>
    exact ⟨fun _ => ⟨_,feedback⟩,fun _ => requested⟩
  | given sound feedback requested executable =>
    refine ⟨fun empty => absurd empty requested,?_⟩
    intro appended
    obtain ⟨entry,same⟩ := appended
    -- a list is never itself with something behind it
    rw [feedback] at same
    simp at same

theorem exists_convert (session : Session) (intact : submission.isIntact parse = true) :
    ∃ new pair, session.convert submission parse = some (new,pair) ∧
      new.settings = session.settings ∧ Converted parse submission session new pair := by
  rw [convert]
  rcases Submission.ok_or_fails session.settings intact with ⟨batch,ok⟩ | ⟨problem,fails⟩
  · have shown := QueryPair.ofBatch_ne_empty session.settings (Batch.visible_of_ofSubmission_ok ok)
    rw [ok]
    refine ⟨_,_,rfl,rfl,.given ?_ rfl shown.1 shown.2⟩
    intro problem fails
    have failed := Submission.fails_iff.mp fails
    rw [ok] at failed
    cases failed
  · rw [Submission.fails_iff.mp fails]
    exact ⟨_,_,rfl,rfl,.failed problem fails rfl rfl rfl⟩

theorem run_append (session : Session) (before after : List Event) :
    session.run parse (before ++ after) =
      (session.run parse before).bind fun next => next.run parse after := by
  induction before generalizing session with
  | nil => rfl
  | cons event rest ih =>
    rw [List.cons_append,run,run,Option.bind_assoc]
    exact Option.bind_congr fun next _ => ih next

theorem Converted.length_feedback (converted : Converted parse submission old new pair)
    (intact : submission.isIntact parse = true) :
    new.feedback.length = old.feedback.length +
      if (Event.convert submission).leavesEntry parse old.settings then 1 else 0 := by
  cases converted with
  | failed problem cause feedback requested executable =>
    rw [Event.leavesEntry,Submission.fails_iff.mp cause,feedback,List.length_append]
    rfl
  | given sound feedback requested executable =>
    rcases Submission.ok_or_fails old.settings intact with ⟨batch,ok⟩ | ⟨problem,fails⟩
    · rw [Event.leavesEntry,ok,feedback]
      rfl
    · exact absurd fails (sound problem)

private theorem exists_perform (session : Session) {event : Event}
    (intact : event.isIntact parse = true) :
    ∃ next, session.perform parse event = some next ∧ next.settings = session.settings ∧
      next.feedback.length = if event.isClear then 0 else
        session.feedback.length + if event.leavesEntry parse session.settings then 1 else 0 := by
  cases event with
  | clear => exact ⟨_,rfl,rfl,rfl⟩
  | add entry => exact ⟨_,rfl,rfl,List.length_append⟩
  | convert submission =>
    obtain ⟨new,pair,computed,settings,converted⟩ := session.exists_convert intact
    refine ⟨new,?_,settings,converted.length_feedback intact⟩
    rw [perform,computed]
    rfl

/-- Along every run the feedback holds one entry for each addition and each failure since it was
cleared last. -/
theorem exists_run (settings : Settings) (events : List Event)
    (intact : ∀ event ∈ events, event.isIntact parse = true) :
    ∃ session, (start settings).run parse events = some session ∧ session.settings = settings ∧
      session.feedback.length =
        (events.rtakeWhile (!·.isClear)).countP (·.leavesEntry parse settings) := by
  -- from the last event, since a clear makes everything before it irrelevant
  induction events using List.reverseRecOn with
  | nil => exact ⟨_,rfl,rfl,rfl⟩
  | append_singleton events event ih =>
    rw [List.forall_mem_append,List.forall_mem_singleton] at intact
    obtain ⟨session,reached,kept,count⟩ := ih intact.1
    obtain ⟨next,performed,same,length⟩ := session.exists_perform intact.2
    refine ⟨next,?_,same.trans kept,?_⟩
    · rw [run_append,reached]
      change (session.perform parse event).bind _ = _
      rw [performed]
      rfl
    · rw [length,kept,List.rtakeWhile_concat]
      cases event.isClear with
      | true => rfl
      | false => simp [List.countP_append,List.countP_singleton,count]

/-- Every conversion of a session fails with one entry and empty queries or adds none and gives
queries that are not empty, so an empty query and a new entry mean the same. -/
theorem run_converted (parse : Document.Parser) (settings : Settings) (events : List Event)
    (intact : ∀ event ∈ events, event.isIntact parse = true) :
    ∃ session, (start settings).run parse events = some session ∧
      session.feedback.length =
        (events.rtakeWhile (!·.isClear)).countP (·.leavesEntry parse settings) ∧
      ∀ before submission after, events = before ++ .convert submission :: after →
        ∃ old new pair, (start settings).run parse before = some old ∧ old.settings = settings ∧
          old.convert submission parse = some (new,pair) ∧ new.run parse after = some session ∧
          Converted parse submission old new pair ∧
          (pair.requested = "" ↔ ∃ entry, new.feedback = old.feedback ++ [entry]) := by
  obtain ⟨session,reached,_,count⟩ := exists_run settings events intact
  refine ⟨session,reached,count,?_⟩
  rintro before submission after rfl
  rw [List.forall_mem_append,List.forall_mem_cons] at intact
  obtain ⟨old,halfway,kept,_⟩ := exists_run settings before intact.1
  obtain ⟨new,pair,computed,_,converted⟩ := old.exists_convert intact.2.1
  refine ⟨old,new,pair,halfway,kept,computed,?_,converted,converted.requested_eq_empty_iff⟩
  rw [run_append,halfway] at reached
  change (old.perform parse (.convert submission)).bind _ = _ at reached
  rw [perform,computed] at reached
  exact reached

def submitPlain (text : String) : Submission := ⟨text,[],false,none⟩

def sampleEvents : List Event :=
  [.convert (submitPlain ""),.add ⟨"noted",none⟩,.clear,.convert (submitPlain "{ ...F }"),
   .convert (submitPlain "{ a { b } }")]

theorem run_sampleEvents :
    (∀ event ∈ sampleEvents, event.isIntact Document.parse = true) ∧
    ∃ session, (start .allOff).run Document.parse sampleEvents = some session ∧
      session.feedback.length = 1 ∧
      ∃ old new pair, old.convert (submitPlain "{ ...F }") = some (new,pair) ∧
        new.run Document.parse [.convert (submitPlain "{ a { b } }")] = some session ∧
        Converted Document.parse (submitPlain "{ ...F }") old new pair := by
  have intact : ∀ event ∈ sampleEvents, event.isIntact Document.parse = true := by decide +kernel
  have counted : (sampleEvents.rtakeWhile (!·.isClear)).countP
      (·.leavesEntry Document.parse .allOff) = 1 := by
    decide +kernel
  obtain ⟨session,reached,count,each⟩ :=
    run_converted Document.parse .allOff sampleEvents intact
  obtain ⟨old,new,pair,_,_,computed,remaining,converted,_⟩ :=
    each [.convert (submitPlain ""),.add ⟨"noted",none⟩,.clear] (submitPlain "{ ...F }") _ rfl
  exact ⟨intact,session,reached,count.trans counted,old,new,pair,computed,remaining,converted⟩

end Session

end FlatQuery
