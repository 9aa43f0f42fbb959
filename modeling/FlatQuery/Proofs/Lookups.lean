import FlatQuery.Proofs.Agreement
import Mathlib.Data.List.Find
import Mathlib.Data.List.Nodup

/-! Which submitted values a conversion looks at. It looks up a variable only if an operation that
runs declares it and mentions it in what it reaches, and only if the variable is not left to be
evaluated later. Whatever else is submitted changes neither a query nor a problem. -/

namespace FlatQuery

/-- The value of a variable is needed for the operation of a scope. -/
structure Scope.Consults (scope : Scope) (name : Name) : Prop where
  declared : ∃ declaration ∈ scope.operation.declarations, declaration.name = name
  mentioned : ∃ selection, scope.request.Reaches scope.operation.selections.toList selection ∧
    ∃ value ∈ selection.values, name ∈ value.2.references
  immediate : ¬ (scope.settings.expressionVariables = true ∧ isExpressionName name.text = true)

namespace Submission

def withValues (submission : Submission) (values : List (String × Json)) : Submission :=
  { submission with values := values }

def Consults (parse : Document.Parser) (settings : Settings) (submission : Submission) (name : Name) :
    Prop :=
  ∃ request, Request.ofSubmission submission parse = .ok request ∧
    ∃ operation ∈ request.operations, Scope.Consults ⟨settings,request,operation⟩ name

/-- Two submissions have the same batch or fail alike, and a session takes both the same way. -/
def Alike (parse : Document.Parser) (settings : Settings) (first second : Submission) : Prop :=
  Batch.ofSubmission settings first parse = Batch.ofSubmission settings second parse ∧
    ∀ feedback, Session.convert first ⟨settings,feedback⟩ parse =
      Session.convert second ⟨settings,feedback⟩ parse

private theorem alike_of_ofSubmission_eq {parse : Document.Parser} {settings : Settings}
    {first second : Submission}
    (same : Batch.ofSubmission settings first parse = Batch.ofSubmission settings second parse) :
    Alike parse settings first second := by
  refine ⟨same,?_⟩
  intro feedback
  rw [Session.convert,Session.convert,same]

end Submission

theorem Request.ofSubmission_withValues (parse : Document.Parser) (submission : Submission)
    (values : List (String × Json)) :
    ofSubmission (submission.withValues values) parse =
      (ofSubmission submission parse).map fun request => { request with values := values } := by
  rw [ofSubmission_eq_bind,ofSubmission_eq_bind,Submission.withValues]
  cases acceptedDocument parse submission.text with
  | error failure => rfl
  | ok document =>
    change (ofDocument document (submission.withValues values)).mapError Failure.problem =
      ((ofDocument document submission).mapError Failure.problem).map _
    rw [ofDocument,ofDocument,Submission.withValues]
    cases select submission.several submission.operationName? document.operations with
    | error problem => rfl
    | ok operations => rfl

private theorem Request.variableTerm_congr {first second : Request} {operation : Document.Operation}
    {name : Name} (location : Location)
    (lookup : (∃ declaration ∈ operation.declarations, declaration.name = name) →
      Json.get? name.text second.values = Json.get? name.text first.values) :
    second.variableTerm operation name.text location =
      first.variableTerm operation name.text location := by
  unfold variableTerm
  cases found : operation.declarations.find? (·.name.text = name.text) with
  | none => rfl
  | some declaration =>
    have declared : declaration ∈ operation.declarations := List.mem_of_find?_eq_some found
    have named : declaration.name.text = name.text := by simpa using List.find?_some found
    simp only [lookup ⟨declaration,declared,Name.eq_of_text_eq named⟩]

def Scope.withValues (scope : Scope) (values : List (String × Json)) : Scope :=
  { scope with request := { scope.request with values := values } }

private theorem Scope.agrees_withValues {scope : Scope} {values : List (String × Json)}
    (lookup : ∀ name, scope.Consults name →
      Json.get? name.text values = Json.get? name.text scope.request.values) :
    scope.Agrees (scope.withValues values) scope.operation.selections.toList where
  fragments _ _ _ _ := rfl
  values := by
    intro selection reached value inside
    refine term_congr value.2 (fun _ _ => rfl) ?_
    intro name present
    by_cases deferred : (scope.settings.expressionVariables && isExpressionName name.text) = true
    · rw [variableTerm_of_deferred deferred]
      exact variableTerm_of_deferred deferred
    · have later : (scope.withValues values).variableTerm name value.1 = _ :=
        variableTerm_of_immediate deferred
      rw [later,variableTerm_of_immediate deferred]
      apply Request.variableTerm_congr
      intro declared
      have needed : scope.Consults name :=
        ⟨declared,⟨selection,reached,value,inside,present⟩,by simpa using deferred⟩
      exact lookup name needed

namespace Batch

variable {settings : Settings}

private theorem ofRequest_withValues {request : Request} {values : List (String × Json)}
    (lookup : ∀ operation ∈ request.operations, ∀ name,
      Scope.Consults ⟨settings,request,operation⟩ name →
        Json.get? name.text values = Json.get? name.text request.values) :
    ofRequest settings { request with values := values } = ofRequest settings request := by
  apply extend_congr
  intro operation inside
  have agrees : Scope.Agrees ⟨settings,request,operation⟩ _ operation.selections.toList :=
    Scope.agrees_withValues (lookup operation inside)
  exact Scope.operationPaths_congr rfl agrees

theorem ofSubmission_withValues {parse : Document.Parser} {submission : Submission}
    {values : List (String × Json)}
    (lookup : ∀ name, submission.Consults parse settings name →
      Json.get? name.text values = Json.get? name.text submission.values) :
    ofSubmission settings (submission.withValues values) parse =
      ofSubmission settings submission parse := by
  rw [ofSubmission,ofSubmission,Request.ofSubmission_withValues]
  cases accepted : Request.ofSubmission submission parse with
  | error failure => rfl
  | ok request =>
    obtain ⟨document,_,chosen⟩ := Request.exists_document_of_ofSubmission_ok accepted
    obtain ⟨_,_,given⟩ := Request.ofDocument_ok_iff.mp chosen
    change (ofRequest settings { request with values := values }).mapError Failure.problem =
      (ofRequest settings request).mapError Failure.problem
    rw [ofRequest_withValues]
    intro operation inside name consults
    rw [given]
    exact lookup name ⟨request,accepted,operation,inside,consults⟩

end Batch

private theorem Json.get?_eq_of_perm {members others : List (String × Json)} (key : String)
    (distinct : (members.map Prod.fst).Nodup) (same : members.Perm others) :
    get? key others = get? key members := by
  have single : {member ∈ members | (member.1 == key) = true}.Subsingleton := by
    intro first inside second present
    have named : first.1 = second.1 :=
      (beq_iff_eq.mp inside.2).trans (beq_iff_eq.mp present.2).symm
    exact List.inj_on_of_nodup_map distinct inside.1 present.1 named
  rw [get?,get?,List.find?_eq_find?_of_perm same single]

namespace Batch

/-- Submitted values that are looked up alike give the same outcome. So a variable that is left to
be evaluated later does not matter at all, and the order of the values does not either. -/
theorem alike_of_same_lookups (parse : Document.Parser) (settings : Settings)
    (submission : Submission) (values : List (String × Json)) :
    ((∀ name, submission.Consults parse settings name →
        Json.get? name.text values = Json.get? name.text submission.values) →
      Submission.Alike parse settings (submission.withValues values) submission) ∧
    (settings.expressionVariables = true →
      (∀ name, isExpressionName name = false →
        Json.get? name values = Json.get? name submission.values) →
      Submission.Alike parse settings (submission.withValues values) submission) ∧
    ((submission.values.map Prod.fst).Nodup → submission.values.Perm values →
      Submission.Alike parse settings (submission.withValues values) submission) := by
  have alike (lookup : ∀ name, submission.Consults parse settings name →
      Json.get? name.text values = Json.get? name.text submission.values) :
      Submission.Alike parse settings (submission.withValues values) submission :=
    Submission.alike_of_ofSubmission_eq (ofSubmission_withValues lookup)
  refine ⟨alike,?_,?_⟩
  · intro deferred lookup
    apply alike
    intro name consults
    obtain ⟨request,_,operation,_,needed⟩ := consults
    apply lookup
    simpa [deferred] using needed.immediate
  · intro distinct permuted
    apply alike
    intro name _
    exact Json.get?_eq_of_perm name.text distinct permuted

def submitForOther : Submission where
  text := "query A($n: Int) { f(n: $n) } query B($m: Int) { g(m: $m) }"
  values := [("m",.integer 1),("n",.integer 2)]
  several := false
  operationName? := some "A"

private theorem submitForOther_consults {name : Name}
    (consults : submitForOther.Consults Document.parse .allOff name) : name.text ≠ "m" := by
  have checked : ((Request.ofSubmission submitForOther).toOption.all fun request =>
      request.operations.all fun operation =>
        operation.declarations.all fun declaration => declaration.name.text ≠ "m") = true := by
    decide +kernel
  obtain ⟨request,accepted,operation,inside,needed⟩ := consults
  obtain ⟨declaration,declared,rfl⟩ := needed.declared
  rw [accepted] at checked
  simpa using List.all_eq_true.mp (List.all_eq_true.mp checked operation inside) declaration declared

theorem alike_submitForOther :
    Submission.Alike Document.parse .allOff (submitForOther.withValues [("n",.integer 2)])
      submitForOther ∧
    Submission.Alike Document.parse ⟨true,false,false⟩
      (submitForOther.withValues (("_n",.null) :: submitForOther.values)) submitForOther ∧
    Submission.Alike Document.parse .allOff
      (submitForOther.withValues submitForOther.values.reverse) submitForOther := by
  refine ⟨?_,?_,?_⟩
  · apply (alike_of_same_lookups Document.parse .allOff submitForOther _).1
    intro name consults
    have other : ("m" == name.text) = false := by
      simpa using (submitForOther_consults consults).symm
    simp [Json.get?,submitForOther,other]
  · apply (alike_of_same_lookups Document.parse ⟨true,false,false⟩ submitForOther _).2.1 rfl
    intro name plain
    have other : ("_n" == name) = false := by
      rw [beq_eq_false_iff_ne]
      intro same
      rw [← same] at plain
      exact absurd plain (by decide)
    simp [Json.get?,other]
  · exact (alike_of_same_lookups Document.parse .allOff submitForOther _).2.2 (by decide)
      (List.reverse_perm _).symm

end Batch

end FlatQuery
