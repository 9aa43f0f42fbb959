import FlatQuery.Proofs.Evaluated

/-! Where the terms on the steps of an operation come from. Each of them is the term of a value that
the operation reaches, except for the guards of type conditions. So an expression stands only where
the document mentions a variable that is left for later, and a call only in a guard or in the term of
a literal that is written in the document. -/

namespace FlatQuery

open Document (Selection SelectionSet)

def Request.condition? (request : Request) : Selection → Option Name
  | .leaf _ | .branch .. => none
  | .spread name _ _ => (request.fragment? name).map (·.condition)
  | .inline condition? _ _ => condition?

namespace Scope

def Gives (scope : Scope) (selections : List Selection) (term : Term) : Prop :=
  ∃ selection, scope.request.Reaches selections selection ∧
    ∃ value ∈ selection.values, scope.term value.1 value.2 = .ok term

inductive Marks (scope : Scope) (selections : List Selection) : Directive → Prop
  | guard (selection : Selection) (type : Name)
      (reached : scope.request.Reaches selections selection)
      (condition : scope.request.condition? selection = some type) :
      Marks scope selections (.typeGuard type.text)
  | written (directive : Directive)
      (terms : ∀ member ∈ directive.arguments, scope.Gives selections member.2) :
      Marks scope selections directive

/-- All that stands on a step comes from what is reached. -/
structure Grounds (scope : Scope) (selections : List Selection) (step : Step) : Prop where
  arguments : ∀ member ∈ step.arguments, scope.Gives selections member.2
  directives : ∀ directive ∈ step.directives, scope.Marks selections directive

section Walk

variable {scope : Scope} {selections outer inner : List Selection} {selection : Selection}

theorem Gives.mono (within : ∀ first ∈ inner, scope.request.Reaches outer first) {term : Term}
    (gives : scope.Gives inner term) : scope.Gives outer term := by
  obtain ⟨selection,reached,source⟩ := gives
  exact ⟨selection,reached.trans within,source⟩

theorem Marks.mono (within : ∀ first ∈ inner, scope.request.Reaches outer first)
    {directive : Directive} (marks : scope.Marks inner directive) : scope.Marks outer directive := by
  cases marks with
  | guard selection type reached condition =>
    exact .guard selection type (reached.trans within) condition
  | written _ terms =>
    refine .written directive ?_
    intro member inside
    exact (terms member inside).mono within

theorem Grounds.mono (within : ∀ first ∈ inner, scope.request.Reaches outer first) {step : Step}
    (grounds : scope.Grounds inner step) : scope.Grounds outer step where
  arguments member inside := (grounds.arguments member inside).mono within
  directives directive inside := (grounds.directives directive inside).mono within

theorem Grounds.prepend {directives : List Directive} {step : Step}
    (marks : ∀ directive ∈ directives, scope.Marks selections directive)
    (grounds : scope.Grounds selections step) : scope.Grounds selections (step.prepend directives) where
  arguments := grounds.arguments
  directives := List.forall_mem_append.mpr ⟨marks,grounds.directives⟩

private theorem gives_of_arguments_ok {location : Location} {members : Document.Arguments}
    {arguments : Arguments} (reached : scope.request.Reaches selections selection)
    (within : ∀ member ∈ members, (location,member.2) ∈ selection.values)
    (ok : scope.arguments location members = .ok arguments) :
    ∀ member ∈ arguments, scope.Gives selections member.2 := by
  intro member inside
  obtain ⟨name,value,present,_,converted⟩ := exists_term_of_mem ok inside
  exact ⟨selection,reached,(location,value),within (name,value) present,converted⟩

theorem marks_of_directives_ok {written : List Document.Directive} {directives : List Directive}
    (reached : scope.request.Reaches selections selection)
    (within : ∀ value ∈ written.flatMap Document.Directive.values, value ∈ selection.values)
    (ok : scope.directives written = .ok directives) :
    ∀ directive ∈ directives, scope.Marks selections directive := by
  intro directive inside
  obtain ⟨source,present,found⟩ := exists_directive_of_mem ok inside
  obtain ⟨_,computed⟩ := directive_ok_iff.mp found
  refine .written directive (gives_of_arguments_ok reached ?_ computed)
  intro member argued
  have own : (source.location,member.2) ∈ source.values := List.mem_map_of_mem argued
  exact within _ (List.mem_flatMap.mpr ⟨source,present,own⟩)

private theorem marks_guards (reached : scope.request.Reaches selections selection) :
    ∀ directive ∈ Directive.guards (scope.request.condition? selection),
      scope.Marks selections directive := by
  cases condition : scope.request.condition? selection with
  | none => simp [Directive.guards]
  | some type =>
    rw [Directive.guards,Option.toList_some,List.map_singleton,List.forall_mem_singleton]
    exact .guard selection type reached condition

private theorem grounds_of_step_ok {field : Document.Field} {step : Step}
    (reached : scope.request.Reaches selections selection)
    (values : selection.values = field.values) (ok : scope.step field = .ok step) :
    scope.Grounds selections step := by
  have converts := step_eq_ok_iff.mp ok
  constructor
  · refine gives_of_arguments_ok reached ?_ converts.arguments
    intro member inside
    rw [values]
    exact List.mem_append_left _ (List.mem_map_of_mem inside)
  · refine marks_of_directives_ok reached ?_ converts.directives
    intro value inside
    rw [values]
    exact List.mem_append_right _ inside

variable (scope selections) in
def Grounded (paths : List Path) : Prop :=
  ∀ path ∈ paths, ∀ step ∈ path, scope.Grounds selections step

namespace Grounded

variable {paths first more : List Path} {rest : List Selection}

theorem mono (within : ∀ first ∈ inner, scope.request.Reaches outer first)
    (grounded : scope.Grounded inner paths) : scope.Grounded outer paths :=
  fun path inside step present => (grounded path inside step present).mono within

theorem append (head : scope.Grounded (selection :: rest) first) (tail : scope.Grounded rest more) :
    scope.Grounded (selection :: rest) (first ++ more) :=
  List.forall_mem_append.mpr
    ⟨head,tail.mono (scope.request.reaches_of_mem_tail selection rest)⟩

theorem below (inside : scope.Grounded (scope.request.contents selection) paths) :
    scope.Grounded (selection :: rest) paths :=
  inside.mono (scope.request.reaches_of_mem_contents selection rest)

theorem cons {step : Step} (root : scope.Grounds selections step)
    (grounded : scope.Grounded selections paths) :
    scope.Grounded selections (paths.map (step :: ·)) := by
  rw [Grounded,List.forall_mem_map]
  intro path inside
  exact List.forall_mem_cons.mpr ⟨root,grounded path inside⟩

theorem prepend {directives : List Directive}
    (marks : ∀ directive ∈ directives, scope.Marks selections directive)
    (grounded : scope.Grounded selections paths) :
    scope.Grounded selections (paths.map (Path.prepend directives)) := by
  rw [Grounded,List.forall_mem_map]
  intro path inside
  have each := grounded path inside
  cases path with
  | nil => exact each
  | cons root rest =>
    rw [List.forall_mem_cons] at each
    exact List.forall_mem_cons.mpr ⟨each.1.prepend marks,each.2⟩

end Grounded

theorem grounded_of_listPaths_ok {entered : List Name} {paths : List Path}
    (ok : scope.listPaths entered selections = .ok paths) : scope.Grounded selections paths := by
  induction entered, selections using Request.walk_induction scope.request generalizing paths with
  | nil entered =>
    cases ok
    intro path absent
    cases absent
  | leaf entered field rest restIH =>
    obtain ⟨first,more,head,tail,rfl⟩ := listPaths_cons_ok_iff.mp ok
    obtain ⟨step,converted,rfl⟩ := selectionPaths_leaf_ok_iff.mp head
    refine Grounded.append ?_ (restIH tail)
    rw [Grounded,List.forall_mem_singleton,List.forall_mem_singleton]
    exact grounds_of_step_ok (scope.request.reaches_head _ rest) rfl converted
  | branch entered field body rest bodyIH restIH =>
    obtain ⟨first,more,head,tail,rfl⟩ := listPaths_cons_ok_iff.mp ok
    obtain ⟨step,inner,converted,walked,rfl⟩ := selectionPaths_branch_ok_iff.mp head
    have within : scope.Grounded (scope.request.contents (.branch field body)) inner := bodyIH walked
    refine Grounded.append (within.below.cons ?_) (restIH tail)
    exact grounds_of_step_ok (scope.request.reaches_head _ rest) rfl converted
  | spread entered name location directives rest bodyIH restIH =>
    obtain ⟨first,more,head,tail,rfl⟩ := listPaths_cons_ok_iff.mp ok
    obtain ⟨fresh,fragment,inner,written,found,walked,converted,rfl⟩ :=
      selectionPaths_spread_ok_iff.mp head
    have within : scope.Grounded
        (scope.request.contents (.spread name location directives)) inner := by
      simpa only [Request.contents,found,Option.map_some,Option.getD_some] using
        bodyIH fragment fresh found walked
    have reached := scope.request.reaches_head (.spread name location directives) rest
    have guards := marks_guards reached
    simp only [Request.condition?,found,Option.map_some] at guards
    have own := marks_of_directives_ok reached (fun _ inside => inside) converted
    exact Grounded.append (within.below.prepend (List.forall_mem_append.mpr ⟨guards,own⟩))
      (restIH tail)
  | inline entered condition? directives body rest bodyIH restIH =>
    obtain ⟨first,more,head,tail,rfl⟩ := listPaths_cons_ok_iff.mp ok
    obtain ⟨inner,written,walked,converted,rfl⟩ := selectionPaths_inline_ok_iff.mp head
    have within : scope.Grounded
        (scope.request.contents (.inline condition? directives body)) inner := bodyIH walked
    have reached := scope.request.reaches_head (.inline condition? directives body) rest
    have own := marks_of_directives_ok reached (fun _ inside => inside) converted
    exact Grounded.append
      (within.below.prepend (List.forall_mem_append.mpr ⟨marks_guards reached,own⟩)) (restIH tail)

end Walk

structure Defers (scope : Scope) (name : String) : Prop where
  enabled : scope.settings.expressionVariables = true
  underscored : isExpressionName name = true
  written : ∃ selection, scope.request.Reaches scope.operation.selections.toList selection ∧
    ∃ value ∈ selection.values, ∃ reference ∈ value.2.references, reference.text = name

structure Embeds (scope : Scope) (text : String) : Prop where
  enabled : scope.settings.embeddedFields = true
  written : ∃ selection, scope.request.Reaches scope.operation.selections.toList selection ∧
    ∃ value ∈ selection.values, text ∈ value.2.literals

def Conditions (scope : Scope) (type : Name) : Prop :=
  ∃ selection, scope.request.Reaches scope.operation.selections.toList selection ∧
    scope.request.condition? selection = some type

end Scope

/-- A term stands at some depth in an argument of a step or of one of its directives. -/
inductive Step.Holds (step : Step) : Option Directive → List Term → Term → Prop
  | argument (member : String × Term) (way : List Term) (term : Term)
      (inside : member ∈ step.arguments) (descends : member.2.Descends way term) :
      Holds step none way term
  | directive (directive : Directive) (member : String × Term) (way : List Term) (term : Term)
      (present : directive ∈ step.directives) (inside : member ∈ directive.arguments)
      (descends : member.2.Descends way term) : Holds step (some directive) way term

namespace Scope

theorem Gives.traced {scope : Scope} {term : Term}
    (gives : scope.Gives scope.operation.selections.toList term) :
    term.Traced scope.Defers scope.Embeds := by
  obtain ⟨selection,reached,value,inside,converted⟩ := gives
  refine traced_of_term_ok value.2 ⟨?_,?_⟩ converted
  · intro name present enabled underscored
    exact ⟨enabled,underscored,selection,reached,value,inside,name,present,rfl⟩
  · intro text present enabled
    exact ⟨enabled,selection,reached,value,inside,present⟩

theorem Grounds.origin {scope : Scope} {step : Step}
    (grounds : scope.Grounds scope.operation.selections.toList step) {directive? : Option Directive}
    {way : List Term} {term : Term} (holds : step.Holds directive? way term) :
    (∃ type, scope.Conditions type ∧ directive? = some (.typeGuard type.text) ∧
      ∀ name, term ≠ .expression name) ∨
    Term.Origin scope.Defers scope.Embeds way term := by
  cases holds with
  | argument member way term inside descends =>
    exact .inr ((grounds.arguments member inside).traced.origin descends)
  | directive directive member way term present inside descends =>
    cases grounds.directives directive present with
    | guard selection type reached condition =>
      have plain := Directive.withoutExpressions_typeGuard type.text member inside way term descends
      exact .inl ⟨type,⟨selection,reached,condition⟩,rfl,plain⟩
    | written _ terms => exact .inr ((terms member inside).traced.origin descends)

/-- In the paths of an operation an expression stands only for a variable that is written with an
underscore and left for later. A call stands only in the guard of a type condition that is reached
or in the term of a literal that is written. The terms of submitted values and of defaults hold
neither. -/
theorem origin_of_evaluated (scope : Scope) (paths : List Path)
    (ok : scope.operationPaths = .ok paths) :
    (∀ path ∈ paths, ∀ step ∈ path, ∀ directive? way,
      (∀ name, step.Holds directive? way (.expression name) → scope.Defers name) ∧
      ∀ called, step.Holds directive? way (.call called) →
        (∃ type, scope.Conditions type ∧ directive? = some (.typeGuard type.text)) ∨
        ∃ literal, scope.Embeds literal ∧ Embedding.term literal ∈ way) ∧
    ∀ operation name location term,
      scope.request.variableTerm operation name location = .ok term → term.Inert := by
  rw [operationPaths_eq_listPaths] at ok
  have grounded := grounded_of_listPaths_ok ok
  refine ⟨?_,fun _ _ _ _ found => Request.inert_of_variableTerm_ok found⟩
  intro path inside step present directive? way
  have grounds := grounded path inside step present
  constructor
  · intro name holds
    rcases grounds.origin holds with ⟨_,_,_,plain⟩ | origin
    · exact absurd rfl (plain name)
    · cases origin with
      | quiet settled => cases settled
      | expression other accounted same =>
        cases same
        exact accounted
      | literal _ _ _ plain => exact absurd rfl (plain name)
  · intro called holds
    rcases grounds.origin holds with ⟨type,reached,guarded,_⟩ | origin
    · exact .inl ⟨type,reached,guarded⟩
    · cases origin with
      | quiet settled => cases settled
      | expression _ _ same => cases same
      | literal text accounted inside _ => exact .inr ⟨text,accounted,inside⟩

def evaluatedSample : Scope where
  settings := ⟨true,true,false⟩
  -- the submitted value only looks like a call and an expression
  request :=
    { operations := []
      fragments := [⟨⟨"Reply",rfl⟩,⟨"User",rfl⟩,
        .single (.leaf ⟨.start,none,⟨"reply",rfl⟩,[(⟨"text",rfl⟩,.reference ⟨"text",rfl⟩)],[]⟩)⟩]
      values := [("text",.string "{{m}} %{_x}%")] }
  operation :=
    { name? := none
      kind := .query
      location := .start
      declarations := [⟨⟨"text",rfl⟩,.named ⟨"Line",rfl⟩,none⟩]
      selections := .single (.branch
        ⟨.start,none,⟨"welcome",rfl⟩,
          [(⟨"time",rfl⟩,.reference ⟨"_time",rfl⟩),(⟨"line",rfl⟩,.string "Hi {{name}}")],[]⟩
        (.single (.spread ⟨"Reply",rfl⟩ .start []))) }

def embeddedCall : Term :=
  .call (.applied "sprintf" [("string",.string "Hi %s"),("values",.list [.call (.plain "name")])])

theorem evaluatedSample_operationPaths : evaluatedSample.operationPaths = .ok
    [[⟨"welcome",[("time",.expression "_time"),("line",embeddedCall)],none,[]⟩,
      ⟨"reply",[("text",.string "{{m}} %{_x}%")],none,[.typeGuard "User"]⟩]] := by
  with_unfolding_all rfl

theorem evaluatedSample_origins :
    evaluatedSample.Defers "_time" ∧
    (∃ literal, evaluatedSample.Embeds literal ∧
      Embedding.term literal ∈ [embeddedCall,.list [.call (.plain "name")],.call (.plain "name")]) ∧
    ((∃ type, evaluatedSample.Conditions type ∧
        some (Directive.typeGuard "User") = some (.typeGuard type.text)) ∨
      ∃ literal, evaluatedSample.Embeds literal ∧
        Embedding.term literal ∈ (Directive.typeGuard "User").arguments.map Prod.snd) ∧
    (Term.string "{{m}} %{_x}%").Inert := by
  obtain ⟨origins,quiet⟩ := origin_of_evaluated evaluatedSample _ evaluatedSample_operationPaths
  rw [List.forall_mem_singleton,List.forall_mem_cons,List.forall_mem_singleton] at origins
  obtain ⟨root,leaf⟩ := origins
  refine ⟨?_,?_,?_,?_⟩
  · exact (root none _).1 "_time" (.argument ("time",.expression "_time") _ _ (by simp) (.here _))
  · have nested : embeddedCall.Descends
        [embeddedCall,.list [.call (.plain "name")],.call (.plain "name")] (.call (.plain "name")) := by
      refine .down _ (.list [.call (.plain "name")]) _ _ ?_ (.down _ _ _ _ ?_ (.here _))
      · simp [embeddedCall,Term.parts,Step.applied]
      · simp [Term.parts]
    rcases (root none _).2 _ (.argument ("line",embeddedCall) _ _ (by simp) nested) with
      ⟨_,_,absent⟩ | found
    · cases absent
    · exact found
  · exact (leaf _ _).2 _ (.directive (.typeGuard "User") _ _ _ (by simp) (List.mem_singleton.mpr rfl)
      (.here _))
  · exact quiet evaluatedSample.operation "text" .start _ rfl

end Scope

end FlatQuery
