import FlatQuery.Proofs.Conversion
import FlatQuery.Session

/-! How a batch comes about. A submission that is accepted means at least one operation, and the
batch grows by the paths of one operation after the other, so whatever each of them keeps holds of
the batch in the end. -/

namespace FlatQuery

namespace Request

variable {submission : Submission} {request : Request}

/-- What is chosen is all that is meant, as long as that is allowed, not nothing, and can run. -/
theorem select_ok_iff {several : Bool} {name? : Option String}
    {operations chosen : List Document.Operation} :
    select several name? operations = .ok chosen ↔
      (name? = none → several = false → (operations.filter isRunnable).length ≤ 1) ∧
        chosen = meant several name? operations ∧ chosen ≠ [] ∧
        ∀ operation ∈ chosen, isRunnable operation = true := by
  have counted : (name?.isNone && !several && 1 < (runnableNames operations).length) = false ↔
      (name? = none → several = false → (operations.filter isRunnable).length ≤ 1) := by
    simp [runnableNames]
  constructor
  · intro ok
    simp only [select] at ok
    split at ok
    · cases ok
    next allowed =>
      split at ok
      · cases ok
      next nonempty =>
        split at ok
        · cases ok
        next unhindered =>
          cases ok
          have runnable : ∀ operation ∈ meant several name? operations,
              isRunnable operation = true := by simpa using unhindered
          exact ⟨counted.mp (by simpa using allowed),rfl,nonempty,runnable⟩
  · rintro ⟨allowed,rfl,nonempty,runnable⟩
    have unhindered : (meant several name? operations).find? (!isRunnable ·) = none := by
      simpa using runnable
    obtain ⟨first,rest,means⟩ := List.exists_cons_of_ne_nil nonempty
    rw [means] at unhindered
    simp only [select,counted.mpr allowed,means,unhindered]
    rfl

theorem ne_nil_of_select_ok {several : Bool} {name? : Option String}
    {operations chosen : List Document.Operation}
    (ok : select several name? operations = .ok chosen) : chosen ≠ [] :=
  (select_ok_iff.mp ok).2.2.1

theorem ofDocument_ok_iff {document : Document} :
    ofDocument document submission = .ok request ↔
      select submission.several submission.operationName? document.operations =
          .ok request.operations ∧
        request.fragments = document.fragments ∧ request.values = submission.values := by
  simp only [ofDocument,bind_eq_ok_iff,pure_eq_ok_iff]
  constructor
  · intro found
    obtain ⟨operations,selected,rfl⟩ := found
    exact ⟨selected,rfl,rfl⟩
  · intro found
    obtain ⟨selected,fragments,values⟩ := found
    refine ⟨request.operations,selected,?_⟩
    rw [← fragments,← values]

def acceptedDocument (parse : Document.Parser) (text : String) : Except Failure Document :=
  if (Text.trim text.toList).isEmpty then .error (.problem .noOperation)
  else
    match parse text with
    | .error .torn => .error .torn
    | .error (.malformed location details) => .error (.problem (malformed location details))
    | .ok document => .ok document

variable {parse : Document.Parser}

theorem ofSubmission_eq_bind (submission : Submission) :
    ofSubmission submission parse = (do
      let document ← acceptedDocument parse submission.text
      (ofDocument document submission).mapError .problem) := by
  unfold ofSubmission acceptedDocument
  split
  · rfl
  · rcases parse submission.text with (_ | _) | _
    · rfl
    · rfl
    · rfl

theorem exists_document_of_ofSubmission_ok (ok : ofSubmission submission parse = .ok request) :
    ∃ document, parse submission.text = .ok document ∧
      ofDocument document submission = .ok request := by
  unfold ofSubmission at ok
  split at ok
  · cases ok
  · split at ok
    · cases ok
    · cases ok
    next document parsed => exact ⟨document,parsed,mapError_eq_ok_iff.mp ok⟩

end Request

namespace Batch

variable {settings : Settings} {request : Request} {batch result : Batch}

theorem ofSubmission_ok_iff {submission : Submission} {parse : Document.Parser} :
    ofSubmission settings submission parse = .ok batch ↔
      ∃ request, Request.ofSubmission submission parse = .ok request ∧
        ofRequest settings request = .ok batch := by
  simp only [ofSubmission,bind_eq_ok_iff,mapError_eq_ok_iff]

theorem extend_cons_ok_iff {operation : Document.Operation} {rest : List Document.Operation} :
    extend settings request batch (operation :: rest) = .ok result ↔
      ∃ paths, Scope.operationPaths ⟨settings,request,operation⟩ = .ok paths ∧
        extend settings request (batch.add operation.id paths) rest = .ok result := by
  rw [extend,bind_eq_ok_iff]

/-- What the paths of each operation keep holds after all of them. -/
theorem extend_induction {motive : Batch → Prop} {operations : List Document.Operation}
    (step : ∀ batch, ∀ operation ∈ operations, ∀ paths,
      Scope.operationPaths ⟨settings,request,operation⟩ = .ok paths → motive batch →
        motive (batch.add operation.id paths))
    (start : motive batch) (ok : extend settings request batch operations = .ok result) :
    motive result := by
  induction operations generalizing batch with
  | nil =>
    cases ok
    exact start
  | cons operation rest ih =>
    obtain ⟨paths,computed,remaining⟩ := extend_cons_ok_iff.mp ok
    refine ih ?_ (step batch operation (by simp) paths computed start) remaining
    intro between other inside
    exact step between other (List.mem_cons_of_mem operation inside)

private theorem add_ne_nil (id : String) (paths : List Path) (batch : Batch) :
    batch.add id paths ≠ [] := by
  cases batch with
  | nil => simp [add]
  | cons entry rest =>
    rw [add]
    split <;> simp

private theorem forall_mem_add {holds : List Path → Prop}
    (join : ∀ first second, holds first → holds second → holds (first ++ second)) (id : String)
    {paths : List Path} (new : holds paths) (before : ∀ entry ∈ batch, holds entry.paths) :
    ∀ entry ∈ batch.add id paths, holds entry.paths := by
  induction batch with
  | nil => simpa [add] using new
  | cons first rest ih =>
    rw [List.forall_mem_cons] at before
    rw [add]
    split
    · exact List.forall_mem_cons.mpr ⟨join _ _ before.1 new,before.2⟩
    · exact List.forall_mem_cons.mpr ⟨before.1,ih before.2⟩

theorem forall_mem_of_ofRequest_ok (holds : List Path → Prop)
    (join : ∀ first second, holds first → holds second → holds (first ++ second))
    (each : ∀ operation ∈ request.operations, ∀ paths,
      Scope.operationPaths ⟨settings,request,operation⟩ = .ok paths → holds paths)
    (ok : ofRequest settings request = .ok batch) : ∀ entry ∈ batch, holds entry.paths := by
  apply extend_induction (motive := fun batch => ∀ entry ∈ batch, holds entry.paths) ?_ ?_ ok
  · intro between operation inside paths computed before
    exact forall_mem_add join operation.id (each operation inside paths computed) before
  · intro entry absent
    cases absent

theorem ne_nil_of_ofRequest_ok (nonempty : request.operations ≠ [])
    (ok : ofRequest settings request = .ok batch) : batch ≠ [] := by
  obtain ⟨operation,rest,operations⟩ := List.exists_cons_of_ne_nil nonempty
  rw [ofRequest,operations] at ok
  obtain ⟨paths,_,remaining⟩ := extend_cons_ok_iff.mp ok
  refine extend_induction (motive := (· ≠ [])) ?_ (add_ne_nil operation.id paths []) remaining
  intro between other _ added _ _
  exact add_ne_nil other.id added between

end Batch

end FlatQuery
