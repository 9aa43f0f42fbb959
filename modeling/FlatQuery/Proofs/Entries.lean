import FlatQuery.Proofs.Together

/-! The entries of a batch. Operations of one text start at different places, and the identifier of an
operation spells its place, so every operation that runs gets an entry of its own and no paths are
ever added to the entry of another one. -/

namespace FlatQuery

open Document (Operation)

namespace Request

variable {parse : Document.Parser} {submission : Submission} {request : Request}

private theorem meant_sublist (several : Bool) (name? : Option String)
    (operations : List Operation) : (meant several name? operations).Sublist operations := by
  cases name? with
  | none => exact List.Sublist.refl operations
  | some name =>
    rw [meant]
    split
    · exact List.filter_sublist
    · exact List.filter_sublist

theorem operations_sublist_of_ofSubmission_ok (ok : ofSubmission submission parse = .ok request) :
    ∃ document, parse submission.text = .ok document ∧
      request.operations.Sublist document.operations := by
  obtain ⟨document,parsed,chosen⟩ := exists_document_of_ofSubmission_ok ok
  obtain ⟨selected,_,_⟩ := ofDocument_ok_iff.mp chosen
  obtain ⟨_,means,_⟩ := select_ok_iff.mp selected
  refine ⟨document,parsed,?_⟩
  rw [means]
  exact meant_sublist _ _ document.operations

theorem locations_ordered_of_ofSubmission_ok (lawful : parse.Lawful)
    (ok : ofSubmission submission parse = .ok request) :
    (request.operations.map Operation.location).Pairwise Location.Before := by
  obtain ⟨document,parsed,within⟩ := operations_sublist_of_ofSubmission_ok ok
  exact (lawful.ordered _ document parsed).sublist (within.map Operation.location)

theorem ids_nodup_of_ofSubmission_ok (lawful : parse.Lawful)
    (ok : ofSubmission submission parse = .ok request) :
    (request.operations.map Operation.id).Nodup := by
  obtain ⟨document,parsed,within⟩ := operations_sublist_of_ofSubmission_ok ok
  exact (lawful.ids_nodup parsed).sublist (within.map Operation.id)

end Request

namespace Batch

variable {settings : Settings} {request : Request} {batch : Batch}

def Belongs (settings : Settings) (request : Request) (operation : Operation) (entry : Entry) : Prop :=
  entry.id = operation.id ∧ Scope.operationPaths ⟨settings,request,operation⟩ = .ok entry.paths

theorem entry_ok_iff {operation : Operation} {result : Entry} :
    entry settings request operation = .ok result ↔ Belongs settings request operation result := by
  rw [entry,map_eq_ok_iff]
  constructor
  · rintro ⟨paths,computed,rfl⟩
    exact ⟨rfl,computed⟩
  · rintro ⟨named,computed⟩
    refine ⟨result.paths,computed,?_⟩
    rw [← named]

theorem belongs_of_mapM_ok {operations : List Operation}
    (ok : operations.mapM (entry settings request) = .ok batch) :
    List.Forall₂ (Belongs settings request) operations batch :=
  (mapM_eq_ok_iff.mp ok).imp fun _ _ => entry_ok_iff.mp

private theorem ids_eq_of_belongs {operations : List Operation}
    (each : List.Forall₂ (Belongs settings request) operations batch) :
    batch.map Entry.id = operations.map Operation.id := by
  induction each with
  | nil => rfl
  | cons belongs _ ih => rw [List.map_cons,List.map_cons,belongs.1,ih]

private theorem extend_before_ok (distinct : (request.operations.map Operation.id).Nodup)
    (ok : ofRequest settings request = .ok batch) {before after : List Operation}
    {operation : Operation} (split : request.operations = before ++ operation :: after) :
    ∃ earlier, extend settings request [] before = .ok earlier ∧
      operation.id ∉ earlier.map Entry.id := by
  rw [ofRequest_eq_mapM distinct,split,List.mapM_append] at ok
  obtain ⟨earlier,computed,_⟩ := bind_eq_ok_iff.mp ok
  rw [split,List.map_append,List.map_cons,List.nodup_append] at distinct
  obtain ⟨own,_,apart⟩ := distinct
  refine ⟨earlier,?_,?_⟩
  -- before this operation nothing was merged either, so the entries are those of a traversal
  · rw [extend_eq_mapM (by simpa using own),computed]
    rfl
  · rw [ids_eq_of_belongs (belongs_of_mapM_ok computed)]
    intro inside
    exact apart _ inside _ (List.mem_cons_self ..) rfl

theorem entries_of_lawful {parse : Document.Parser} (lawful : parse.Lawful)
    {submission : Submission} (accepted : Request.ofSubmission submission parse = .ok request)
    (ok : ofRequest settings request = .ok batch) :
    (∃ document, parse submission.text = .ok document ∧
      request.operations.Sublist document.operations) ∧
    (request.operations.map Operation.location).Pairwise Location.Before ∧
    List.Forall₂ (Belongs settings request) request.operations batch ∧
    (batch.map Entry.id).Nodup ∧
    ∀ before operation after, request.operations = before ++ operation :: after →
      ∃ earlier, extend settings request [] before = .ok earlier ∧
        operation.id ∉ earlier.map Entry.id := by
  have distinct := Request.ids_nodup_of_ofSubmission_ok lawful accepted
  have each : List.Forall₂ (Belongs settings request) request.operations batch := by
    rw [ofRequest_eq_mapM distinct] at ok
    exact belongs_of_mapM_ok ok
  refine ⟨Request.operations_sublist_of_ofSubmission_ok accepted,
    Request.locations_ordered_of_ofSubmission_ok lawful accepted,each,?_,?_⟩
  · rw [ids_eq_of_belongs each]
    exact distinct
  · intro before operation after split
    exact extend_before_ok distinct ok split

/-- Every operation that runs has one entry, in the order of the text, with its own identifier and
its own paths only. When its paths are added no entry has its identifier yet. -/
theorem entries_never_merged {submission : Submission}
    (accepted : Request.ofSubmission submission = .ok request)
    (ok : ofRequest settings request = .ok batch) :
    (∃ document, Document.parse submission.text = .ok document ∧
      request.operations.Sublist document.operations) ∧
    (request.operations.map Operation.location).Pairwise Location.Before ∧
    List.Forall₂ (Belongs settings request) request.operations batch ∧
    (batch.map Entry.id).Nodup ∧
    ∀ before operation after, request.operations = before ++ operation :: after →
      ∃ earlier, extend settings request [] before = .ok earlier ∧
        operation.id ∉ earlier.map Entry.id :=
  entries_of_lawful Document.parse_lawful accepted ok

def submitTwins : Submission := ⟨"{ a }\n\t# twin\r\n{ a }",[],true,none⟩

-- the operations differ only in their places, and the end of the comment counts as two lines
theorem submitTwins_entries :
    ∃ request batch, Request.ofSubmission submitTwins = .ok request ∧
      ofRequest .allOff request = .ok batch ∧ batch.map Entry.id = ["1-1","4-1"] ∧
      List.Forall₂ (Belongs .allOff request) request.operations batch ∧
      (batch.map Entry.id).Nodup := by
  have computed : (ofSubmission .allOff submitTwins).toOption.any (fun batch =>
      batch.map Entry.id = ["1-1","4-1"]) = true := by
    decide +kernel
  obtain ⟨batch,converted,ids⟩ := exists_ok_of_any computed
  obtain ⟨request,accepted,ok⟩ := ofSubmission_ok_iff.mp converted
  obtain ⟨_,_,each,distinct,_⟩ := entries_never_merged accepted ok
  exact ⟨request,batch,accepted,ok,of_decide_eq_true ids,each,distinct⟩

end Batch

end FlatQuery
