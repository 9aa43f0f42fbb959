import FlatQuery.Proofs.Agreement
import FlatQuery.Proofs.Places
import Mathlib.Data.List.Forall2
import Mathlib.Data.List.Nodup

/-! Operations that run together. Each of them gets an entry of its own that depends on nothing but
the operation, the fragments and the submitted values, so a batch is what the operations give one by
one, and its problem is that of the first one that has a problem alone. -/

namespace FlatQuery

open Document (Operation)

theorem mapM_eq_ok_iff {ε α β : Type} {f : α → Except ε β} {xs : List α} {ys : List β} :
    xs.mapM f = .ok ys ↔ List.Forall₂ (fun x y => f x = .ok y) xs ys := by
  induction xs generalizing ys with
  | nil => simp [pure_eq_ok_iff]
  | cons x xs ih =>
    simp only [List.mapM_cons,bind_eq_ok_iff,pure_eq_ok_iff,List.forall₂_cons_left_iff,ih]
    grind

theorem exists_mapM_iff {ε α β : Type} {f : α → Except ε β} {xs : List α} :
    (∃ ys, xs.mapM f = .ok ys) ↔ ∀ x ∈ xs, ∃ y, f x = .ok y := by
  induction xs with
  | nil => simp [pure_eq_ok_iff]
  | cons x xs ih =>
    simp only [List.mapM_cons,bind_eq_ok_iff,pure_eq_ok_iff,List.forall_mem_cons,← ih]
    grind

theorem exists_first_of_mapM_error {ε α β : Type} {f : α → Except ε β} {xs : List α} {problem : ε}
    (failed : xs.mapM f = .error problem) :
    ∃ before x after, xs = before ++ x :: after ∧ (∀ y ∈ before, ∃ value, f y = .ok value) ∧
      f x = .error problem := by
  induction xs with
  | nil => cases failed
  | cons x xs ih =>
    rw [List.mapM_cons] at failed
    cases head : f x with
    | error cause =>
      rw [head] at failed
      cases failed
      exact ⟨[],x,xs,rfl,by simp,head⟩
    | ok value =>
      cases tail : xs.mapM f with
      | ok values =>
        rw [head,tail] at failed
        cases failed
      | error cause =>
        rw [head,tail] at failed
        cases failed
        obtain ⟨before,first,after,rfl,passed,fails⟩ := ih tail
        exact ⟨x :: before,first,after,rfl,List.forall_mem_cons.mpr ⟨⟨value,head⟩,passed⟩,fails⟩

namespace Batch

def entry (settings : Settings) (request : Request) (operation : Operation) : Except Problem Entry :=
  (Scope.operationPaths ⟨settings,request,operation⟩).map (Entry.mk operation.id)

private theorem add_of_fresh {batch : Batch} {id : String} (paths : List Path)
    (fresh : id ∉ batch.map Entry.id) : batch.add id paths = batch ++ [⟨id,paths⟩] := by
  induction batch with
  | nil => rfl
  | cons entry rest ih =>
    rw [List.map_cons,List.mem_cons,not_or] at fresh
    rw [add,if_neg (Ne.symm fresh.1),ih fresh.2,List.cons_append]

theorem extend_eq_mapM {settings : Settings} {request : Request} {batch : Batch}
    {operations : List Operation}
    (distinct : (batch.map Entry.id ++ operations.map Operation.id).Nodup) :
    extend settings request batch operations =
      (operations.mapM (entry settings request)).map (batch ++ ·) := by
  induction operations generalizing batch with
  | nil =>
    change Except.ok batch = .ok (batch ++ [])
    rw [List.append_nil]
  | cons operation rest ih =>
    rw [extend,List.mapM_cons,entry]
    cases Scope.operationPaths ⟨settings,request,operation⟩ with
    | error problem => rfl
    | ok paths =>
      have moved : ((batch ++ [Entry.mk operation.id paths]).map Entry.id ++
          rest.map Operation.id).Nodup := by simpa using distinct
      have fresh : operation.id ∉ batch.map Entry.id := by
        intro inside
        exact (List.nodup_append.mp distinct).2.2 _ inside _ (List.mem_cons_self ..) rfl
      change extend settings request (batch.add operation.id paths) rest = _
      rw [add_of_fresh paths fresh,ih moved]
      cases rest.mapM (entry settings request) with
      | error problem => rfl
      | ok entries =>
        change Except.ok (batch ++ [_] ++ entries) = .ok (batch ++ _ :: entries)
        rw [List.append_assoc,List.singleton_append]

theorem ofRequest_eq_mapM {settings : Settings} {request : Request}
    (distinct : (request.operations.map Operation.id).Nodup) :
    ofRequest settings request = request.operations.mapM (entry settings request) := by
  rw [ofRequest,extend_eq_mapM (by simpa using distinct)]
  cases request.operations.mapM (entry settings request) with
  | error problem => rfl
  | ok entries => rfl

private theorem ofRequest_single {settings : Settings} {request : Request} {operation : Operation}
    (only : request.operations = [operation]) :
    ofRequest settings request = (entry settings request operation).map ([·]) := by
  rw [ofRequest,only,extend,entry]
  cases Scope.operationPaths ⟨settings,request,operation⟩ with
  | error problem => rfl
  | ok paths => rfl

theorem entry_withOperations (settings : Settings) (request : Request) (operation : Operation)
    (operations : List Operation) :
    entry settings { request with operations := operations } operation =
      entry settings request operation := by
  have agrees := Scope.agrees_of_same_fragments settings request
    { request with operations := operations } operation rfl (fun _ _ _ _ => rfl)
  have same : Scope.operationPaths ⟨settings,{ request with operations := operations },operation⟩ =
      Scope.operationPaths ⟨settings,request,operation⟩ := Scope.operationPaths_congr rfl agrees
  rw [entry,entry,same]

end Batch

namespace Request

variable {operations : List Operation}

private theorem select_of_meant {several : Bool} {name? : Option String} {chosen : List Operation}
    (allowed : (name?.isNone && !several) = false) (means : meant several name? operations = chosen)
    (nonempty : chosen ≠ []) (runnable : ∀ operation ∈ chosen, operation.kind ≠ .subscription) :
    select several name? operations = .ok chosen := by
  refine select_ok_iff.mpr ⟨?_,means.symm,nonempty,by simpa [isRunnable] using runnable⟩
  rintro rfl rfl
  cases allowed

private theorem isNamed_iff {operation : Operation} {name : Name} :
    isNamed name.text operation = true ↔ operation.name? = some name := by
  cases given : operation.name? with
  | none => simp [isNamed,given]
  | some other =>
    simp only [isNamed,given,Option.map_some,Option.some.injEq,decide_eq_true_eq]
    exact ⟨Name.eq_of_text_eq,congrArg Name.text⟩

private theorem filter_isNamed {operation : Operation} {name : Name}
    (distinct : (operations.map Operation.name?).Nodup) (inside : operation ∈ operations)
    (named : operation.name? = some name) :
    operations.filter (isNamed name.text) = [operation] := by
  obtain ⟨before,after,rfl⟩ := List.append_of_mem inside
  rw [List.map_append,List.map_cons,List.nodup_middle,← List.map_append,List.nodup_cons,named] at distinct
  have others : ∀ other ∈ before ++ after, ¬ isNamed name.text other = true := by
    intro other present same
    exact distinct.1 (isNamed_iff.mp same ▸ List.mem_map_of_mem present)
  rw [List.forall_mem_append] at others
  rw [List.filter_append,List.filter_cons_of_pos (isNamed_iff.mpr named),
    List.filter_eq_nil_iff.mpr others.1,List.filter_eq_nil_iff.mpr others.2,List.nil_append]

private theorem ofSubmission_of_select {parse : Document.Parser} (lawful : parse.Lawful)
    {submission : Submission} {document : Document} {chosen : List Operation}
    (parsed : parse submission.text = .ok document)
    (selected : select submission.several submission.operationName? document.operations =
      .ok chosen) :
    ofSubmission submission parse = .ok ⟨chosen,document.fragments,submission.values⟩ := by
  rw [ofSubmission_eq_of_parse_ok lawful parsed,ofDocument,selected]
  rfl

end Request

namespace Submission

/-- All the operations of a text, to run together. -/
def together (text : String) (values : List (String × Json)) : Submission := ⟨text,values,true,none⟩

/-- One operation of a text by its name, to run alone. -/
def alone (text : String) (values : List (String × Json)) (operation : Operation) : Submission :=
  ⟨text,values,false,operation.name?.map Name.text⟩

end Submission

theorem Batch.text_eq_intercalate (batch : Batch) :
    batch.text = ";".intercalate (batch.map fun entry => Batch.text [entry]) := by
  have single (entry : Entry) : (Batch.text [entry]).toList = entry.chars := by
    simp [text,chars]
  apply String.toList_injective
  rw [String.toList_intercalate,List.map_map]
  simp only [Function.comp_def,single]
  exact String.toList_ofList

namespace Batch

variable {parse : Document.Parser} (settings : Settings) {text : String}
  (values : List (String × Json)) {document : Document}

private theorem ofSubmission_together (lawful : parse.Lawful) (parsed : parse text = .ok document)
    (nonempty : document.operations ≠ [])
    (runnable : ∀ operation ∈ document.operations, operation.kind ≠ .subscription) :
    ofSubmission settings (.together text values) parse =
      (document.operations.mapM
        (entry settings ⟨document.operations,document.fragments,values⟩)).mapError .problem := by
  have selected : Request.select true none document.operations = .ok document.operations :=
    Request.select_of_meant rfl rfl nonempty runnable
  have accepted : Request.ofSubmission (.together text values) parse =
      .ok ⟨document.operations,document.fragments,values⟩ :=
    Request.ofSubmission_of_select lawful parsed selected
  rw [ofSubmission,accepted]
  change (ofRequest settings _).mapError Failure.problem = _
  rw [ofRequest_eq_mapM (lawful.ids_nodup parsed)]

private theorem ofSubmission_alone (lawful : parse.Lawful) (parsed : parse text = .ok document)
    (named : ∀ operation ∈ document.operations, operation.name? ≠ none)
    (distinct : (document.operations.map Operation.name?).Nodup)
    (runnable : ∀ operation ∈ document.operations, operation.kind ≠ .subscription)
    {operation : Operation} (inside : operation ∈ document.operations) :
    ofSubmission settings (.alone text values operation) parse =
      ((entry settings ⟨document.operations,document.fragments,values⟩ operation).map
        ([·])).mapError .problem := by
  obtain ⟨name,given⟩ := Option.ne_none_iff_exists'.mp (named operation inside)
  have selected : Request.select false (some name.text) document.operations = .ok [operation] :=
    Request.select_of_meant rfl (Request.filter_isNamed distinct inside given) (by simp)
      (by simpa using runnable operation inside)
  have accepted : Request.ofSubmission (.alone text values operation) parse =
      .ok ⟨[operation],document.fragments,values⟩ := by
    have spelled : parse (Submission.alone text values operation).text = .ok document := parsed
    apply Request.ofSubmission_of_select lawful spelled
    rwa [Submission.alone,given]
  have single := entry_withOperations settings
    ⟨document.operations,document.fragments,values⟩ operation [operation]
  rw [ofSubmission,accepted]
  change (ofRequest settings _).mapError Failure.problem = _
  rw [ofRequest_single rfl,single]

/-- Together and alone, an operation gives the same entry or fails with the same problem. -/
structure Separate (parse : Document.Parser) (settings : Settings) (text : String)
    (values : List (String × Json)) (operations : List Operation)
    (give : Operation → Except Problem Entry) : Prop where
  together : ofSubmission settings (.together text values) parse =
    (operations.mapM give).mapError .problem
  alone : ∀ operation ∈ operations, ofSubmission settings (.alone text values operation) parse =
    ((give operation).map ([·])).mapError .problem

theorem separate_of_parse_ok (lawful : parse.Lawful) (parsed : parse text = .ok document)
    (nonempty : document.operations ≠ [])
    (named : ∀ operation ∈ document.operations, operation.name? ≠ none)
    (distinct : (document.operations.map Operation.name?).Nodup)
    (runnable : ∀ operation ∈ document.operations, operation.kind ≠ .subscription) :
    Separate parse settings text values document.operations
      (entry settings ⟨document.operations,document.fragments,values⟩) where
  together := ofSubmission_together settings values lawful parsed nonempty runnable
  alone _ inside := ofSubmission_alone settings values lawful parsed named distinct runnable inside

namespace Separate

variable {settings : Settings} {values : List (String × Json)} {operations : List Operation}
  {give : Operation → Except Problem Entry}

theorem alone_ok_iff (separate : Separate parse settings text values operations give)
    {operation : Operation} (inside : operation ∈ operations) {single : Batch} :
    ofSubmission settings (.alone text values operation) parse = .ok single ↔
      ∃ entry, give operation = .ok entry ∧ single = [entry] := by
  rw [separate.alone operation inside,mapError_eq_ok_iff,map_eq_ok_iff]

theorem exists_alone_iff (separate : Separate parse settings text values operations give)
    {operation : Operation} (inside : operation ∈ operations) :
    (∃ single, ofSubmission settings (.alone text values operation) parse = .ok single) ↔
      ∃ entry, give operation = .ok entry := by
  simp only [separate.alone_ok_iff inside]
  constructor
  · intro succeeded
    obtain ⟨_,entry,given,_⟩ := succeeded
    exact ⟨entry,given⟩
  · intro succeeded
    obtain ⟨entry,given⟩ := succeeded
    exact ⟨[entry],entry,given,rfl⟩

theorem exists_together_iff (separate : Separate parse settings text values operations give) :
    (∃ batch, ofSubmission settings (.together text values) parse = .ok batch) ↔
      ∀ operation ∈ operations,
        ∃ single, ofSubmission settings (.alone text values operation) parse = .ok single := by
  simp only [separate.together,mapError_eq_ok_iff,exists_mapM_iff]
  refine forall₂_congr ?_
  intro operation inside
  exact (separate.exists_alone_iff inside).symm

theorem requested_of_together_ok (separate : Separate parse settings text values operations give)
    {batch : Batch} (ok : ofSubmission settings (.together text values) parse = .ok batch) :
    ∃ singles, List.Forall₂ (fun operation single =>
        ofSubmission settings (.alone text values operation) parse = .ok single) operations singles ∧
      (QueryPair.ofBatch settings batch).requested = ";".intercalate
        (singles.map fun single => (QueryPair.ofBatch settings single).requested) := by
  rw [separate.together,mapError_eq_ok_iff,mapM_eq_ok_iff] at ok
  have within := (List.forall₂_and_left (p := (· ∈ operations)) _ _).mpr ⟨fun _ inside => inside,ok⟩
  refine ⟨batch.map ([·]),?_,?_⟩
  · rw [List.forall₂_map_right_iff]
    refine within.imp ?_
    intro operation entry given
    exact (separate.alone_ok_iff given.1).mpr ⟨entry,given.2,rfl⟩
  · rw [List.map_map]
    exact text_eq_intercalate batch

theorem exists_first_of_together_error
    (separate : Separate parse settings text values operations give) {failure : Failure}
    (failed : ofSubmission settings (.together text values) parse = .error failure) :
    ∃ before operation after, operations = before ++ operation :: after ∧
      (∀ earlier ∈ before,
        ∃ single, ofSubmission settings (.alone text values earlier) parse = .ok single) ∧
      ofSubmission settings (.alone text values operation) parse = .error failure := by
  rw [separate.together,mapError_eq_error_iff] at failed
  obtain ⟨problem,stopped,rfl⟩ := failed
  obtain ⟨before,operation,after,rfl,passed,fails⟩ := exists_first_of_mapM_error stopped
  refine ⟨before,operation,after,rfl,?_,?_⟩
  · intro earlier present
    have inside : earlier ∈ before ++ operation :: after := List.mem_append_left _ present
    exact (separate.exists_alone_iff inside).mpr (passed earlier present)
  · rw [separate.alone operation (by simp),fails]
    rfl

end Separate

theorem together_of_lawful (lawful : parse.Lawful) (parsed : parse text = .ok document)
    (nonempty : document.operations ≠ [])
    (named : ∀ operation ∈ document.operations, operation.name? ≠ none)
    (distinct : (document.operations.map Operation.name?).Nodup)
    (runnable : ∀ operation ∈ document.operations, operation.kind ≠ .subscription) :
    ((∃ batch, ofSubmission settings (.together text values) parse = .ok batch) ↔
      ∀ operation ∈ document.operations,
        ∃ single, ofSubmission settings (.alone text values operation) parse = .ok single) ∧
    (∀ batch, ofSubmission settings (.together text values) parse = .ok batch →
      ∃ singles, List.Forall₂ (fun operation single =>
          ofSubmission settings (.alone text values operation) parse = .ok single)
        document.operations singles ∧
      (QueryPair.ofBatch settings batch).requested = ";".intercalate
        (singles.map fun single => (QueryPair.ofBatch settings single).requested)) ∧
    (∀ failure, ofSubmission settings (.together text values) parse = .error failure →
      ∃ before operation after, document.operations = before ++ operation :: after ∧
        (∀ earlier ∈ before,
          ∃ single, ofSubmission settings (.alone text values earlier) parse = .ok single) ∧
        ofSubmission settings (.alone text values operation) parse = .error failure) := by
  have separate :=
    separate_of_parse_ok settings values lawful parsed nonempty named distinct runnable
  refine ⟨separate.exists_together_iff,?_,?_⟩
  · intro batch ok
    exact separate.requested_of_together_ok ok
  · intro failure failed
    exact separate.exists_first_of_together_error failed

/-- A batch runs all operations or none: what it gives is what each of them gives alone, and what it
fails with is what the first of them fails with alone. -/
theorem together_eq_alone_each (parsed : Document.parse text = .ok document)
    (nonempty : document.operations ≠ [])
    (named : ∀ operation ∈ document.operations, operation.name? ≠ none)
    (distinct : (document.operations.map Operation.name?).Nodup)
    (runnable : ∀ operation ∈ document.operations, operation.kind ≠ .subscription) :
    ((∃ batch, ofSubmission settings (.together text values) = .ok batch) ↔
      ∀ operation ∈ document.operations,
        ∃ single, ofSubmission settings (.alone text values operation) = .ok single) ∧
    (∀ batch, ofSubmission settings (.together text values) = .ok batch →
      ∃ singles, List.Forall₂ (fun operation single =>
          ofSubmission settings (.alone text values operation) = .ok single)
        document.operations singles ∧
      (QueryPair.ofBatch settings batch).requested = ";".intercalate
        (singles.map fun single => (QueryPair.ofBatch settings single).requested)) ∧
    (∀ failure, ofSubmission settings (.together text values) = .error failure →
      ∃ before operation after, document.operations = before ++ operation :: after ∧
        (∀ earlier ∈ before,
          ∃ single, ofSubmission settings (.alone text values earlier) = .ok single) ∧
        ofSubmission settings (.alone text values operation) = .error failure) :=
  together_of_lawful settings values Document.parse_lawful parsed nonempty named distinct runnable

def sharedText : String :=
  "query A($n: Int = 1) { ...F } query B($n: Int = 2) { ...F } fragment F on T { f(n: $n) }"

def sharedQuery : String :=
  let guarded := "<include(if:or(values:[isType(type:T),implements(interface:T)]))>"
  "f(n:1)" ++ guarded ++ ";f(n:2)" ++ guarded

theorem together_sharedText :
    ∃ document batch singles, Document.parse sharedText = .ok document ∧
      ofSubmission .allOff (.together sharedText []) = .ok batch ∧
      List.Forall₂ (fun operation single =>
          ofSubmission .allOff (.alone sharedText [] operation) = .ok single)
        document.operations singles ∧
      ";".intercalate (singles.map fun single => (QueryPair.ofBatch .allOff single).requested) =
        sharedQuery := by
  have admissible : (Document.parse sharedText).toOption.any (fun document =>
      document.operations ≠ [] ∧ (∀ operation ∈ document.operations, operation.name? ≠ none) ∧
        (document.operations.map Operation.name?).Nodup ∧
        ∀ operation ∈ document.operations, operation.kind ≠ .subscription) = true := by
    decide +kernel
  have computed : (ofSubmission .allOff (.together sharedText [])).toOption.any (fun batch =>
      (QueryPair.ofBatch .allOff batch).requested = sharedQuery) = true := by
    decide +kernel
  obtain ⟨document,parsed,conditions⟩ := exists_ok_of_any admissible
  obtain ⟨nonempty,named,distinct,runnable⟩ := of_decide_eq_true conditions
  obtain ⟨batch,ok,requested⟩ := exists_ok_of_any computed
  have both := together_eq_alone_each .allOff [] parsed nonempty named distinct runnable
  obtain ⟨singles,each,joined⟩ := both.2.1 batch ok
  exact ⟨document,batch,singles,parsed,ok,each,joined.symm.trans (of_decide_eq_true requested)⟩

end Batch

end FlatQuery
