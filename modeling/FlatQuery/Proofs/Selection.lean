import FlatQuery.Proofs.Entries

/-! Which operations run. Without a name and without leave to run several there is one operation in
the whole document. With a name all the operations of that name run, since nothing keeps a document
from using a name twice. -/

namespace FlatQuery

open Document (Operation)

namespace Request

variable {operations chosen : List Operation}

private theorem meant_named (name : String) (operations : List Operation) :
    meant false (some name) operations = operations.filter (isNamed name) := by
  rw [meant,Bool.false_and]
  exact if_neg Bool.false_ne_true

private theorem length_eq_one_of_select_unnamed (ok : select false none operations = .ok chosen) :
    chosen.length = 1 := by
  obtain ⟨allowed,means,nonempty,runnable⟩ := select_ok_iff.mp ok
  have whole : chosen = operations := means
  subst whole
  -- subscriptions are not counted, but a document with one is refused
  have counted : chosen.filter isRunnable = chosen := List.filter_eq_self.mpr runnable
  have few : chosen.length ≤ 1 := by
    have limit := allowed rfl rfl
    rwa [counted] at limit
  have present : 0 < chosen.length := List.length_pos_iff.mpr nonempty
  omega

theorem eq_filter_of_select_named {name : String}
    (ok : select false (some name) operations = .ok chosen) :
    chosen = operations.filter (isNamed name) := by
  obtain ⟨_,means,_⟩ := select_ok_iff.mp ok
  rw [means,meant_named]

private theorem length_eq_one_iff_of_select {name? : Option String}
    (ok : select false name? operations = .ok chosen) :
    chosen.length = 1 ↔
      ∀ name, name? = some name → (operations.filter (isNamed name)).length = 1 := by
  cases name? with
  | none =>
    have single := length_eq_one_of_select_unnamed ok
    simp [single]
  | some name =>
    rw [eq_filter_of_select_named ok]
    simp

end Request

theorem Batch.length_eq_of_ofRequest_ok {parse : Document.Parser} (lawful : parse.Lawful)
    {settings : Settings} {submission : Submission} {request : Request} {batch : Batch}
    (accepted : Request.ofSubmission submission parse = .ok request)
    (ok : ofRequest settings request = .ok batch) : batch.length = request.operations.length := by
  rw [ofRequest_eq_mapM (Request.ids_nodup_of_ofSubmission_ok lawful accepted)] at ok
  exact (belongs_of_mapM_ok ok).length_eq.symm

namespace Request

theorem runs_one_iff_of_lawful {parse : Document.Parser} (lawful : parse.Lawful)
    {submission : Submission} {request : Request} (single : submission.several = false)
    (accepted : ofSubmission submission parse = .ok request) :
    ∃ document, parse submission.text = .ok document ∧
      (request.operations.length = 1 ↔ ∀ name, submission.operationName? = some name →
        (document.operations.filter (isNamed name)).length = 1) ∧
      (∀ name, submission.operationName? = some name →
        request.operations = document.operations.filter (isNamed name)) ∧
      ∀ settings batch, Batch.ofRequest settings request = .ok batch →
        batch.length = request.operations.length := by
  obtain ⟨document,parsed,chosen⟩ := exists_document_of_ofSubmission_ok accepted
  obtain ⟨selected,_,_⟩ := ofDocument_ok_iff.mp chosen
  rw [single] at selected
  refine ⟨document,parsed,length_eq_one_iff_of_select selected,?_,?_⟩
  · intro name given
    rw [given] at selected
    exact eq_filter_of_select_named selected
  · intro settings batch ok
    exact Batch.length_eq_of_ofRequest_ok lawful accepted ok

/-- Without leave to run several, one operation runs exactly if the name that is given, if any, is
the name of one operation only. Otherwise all the operations of that name run, and the batch has an
entry for each of them. -/
theorem runs_one_iff_named_once {submission : Submission} {request : Request}
    (single : submission.several = false) (accepted : ofSubmission submission = .ok request) :
    ∃ document, Document.parse submission.text = .ok document ∧
      (request.operations.length = 1 ↔ ∀ name, submission.operationName? = some name →
        (document.operations.filter (isNamed name)).length = 1) ∧
      (∀ name, submission.operationName? = some name →
        request.operations = document.operations.filter (isNamed name)) ∧
      ∀ settings batch, Batch.ofRequest settings request = .ok batch →
        batch.length = request.operations.length :=
  runs_one_iff_of_lawful Document.parse_lawful single accepted

def submitNamed (text name : String) : Submission := ⟨text,[],false,some name⟩

def manyNames : String := "query A { a } subscription S { s } mutation B { b } { c }"

theorem runs_one_of_manyNames :
    ∃ request document, ofSubmission (submitNamed manyNames "B") = .ok request ∧
      Document.parse manyNames = .ok document ∧
      (document.operations.filter (isNamed "B")).length = 1 ∧ request.operations.length = 1 := by
  have computed : (ofSubmission (submitNamed manyNames "B")).toOption.any (fun _ => true) = true := by
    decide +kernel
  have named : (Document.parse manyNames).toOption.any (fun document =>
      (document.operations.filter (isNamed "B")).length = 1) = true := by
    decide +kernel
  obtain ⟨request,accepted,_⟩ := exists_ok_of_any computed
  obtain ⟨document,parsed,once⟩ := exists_ok_of_any named
  obtain ⟨other,same,one,_⟩ := runs_one_iff_named_once rfl accepted
  cases parsed.symm.trans same
  refine ⟨request,document,accepted,parsed,of_decide_eq_true once,one.mpr ?_⟩
  intro name given
  cases given
  exact of_decide_eq_true once

/-- Two operations of one name run both, although only one may. -/
theorem runs_two_of_repeated_name :
    ∃ request batch, ofSubmission (submitNamed "query A { a } query A { b }" "A") = .ok request ∧
      request.operations.length = 2 ∧ Batch.ofRequest .allOff request = .ok batch ∧
      batch.text = "a;b" := by
  have counted : (ofSubmission (submitNamed "query A { a } query A { b }" "A")).toOption.any
      (fun request => request.operations.length = 2 ∧
        (Batch.ofRequest .allOff request).toOption.any (fun batch => batch.text = "a;b") = true) =
      true := by
    decide +kernel
  obtain ⟨request,accepted,found⟩ := exists_ok_of_any counted
  obtain ⟨two,converted⟩ := of_decide_eq_true found
  obtain ⟨batch,ok,shown⟩ := exists_ok_of_any converted
  exact ⟨request,batch,accepted,two,ok,of_decide_eq_true shown⟩

end Request

end FlatQuery
