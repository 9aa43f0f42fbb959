import FlatQuery.Proofs.Agreement
import Mathlib.Data.List.Forall2

/-! Where the problem of a walk comes from. Every problem points to a place that the operation
really reaches: a spread without a fragment, a spread inside its own fragment, or a variable for
which there is no value. -/

namespace FlatQuery

open Document (Selection SelectionSet)

section

variable {ε α β γ : Type} {first : Except ε α} {second : Except ε β} {problem : ε}

private theorem map_eq_error_iff {f : α → β} :
    first.map f = .error problem ↔ first = .error problem := by
  cases first <;> simp [Except.map]

theorem error_of_bind_pure {f : α → β}
    (failed : (first >>= fun value => pure (f value)) = .error problem) :
    first = .error problem := by
  cases first with
  | error cause =>
    cases failed
    rfl
  | ok value => cases failed

theorem error_or_error_of_bind {f : α → β → γ}
    (failed : (first >>= fun value => second >>= fun other => pure (f value other)) =
      .error problem) : first = .error problem ∨ second = .error problem := by
  cases first with
  | error cause =>
    cases failed
    exact .inl rfl
  | ok value => exact .inr (error_of_bind_pure failed)

end

private theorem Json.not_mem_of_get?_eq_none {key : String} {members : List (String × Json)}
    (missing : get? key members = none) (value : Json) : (key,value) ∉ members := by
  rw [get?,Option.map_eq_none_iff,List.find?_eq_none] at missing
  intro inside
  exact missing _ inside (beq_self_eq_true key)

private theorem Document.TypeRef.exists_nonNull_of_isNonNull {type : TypeRef}
    (required : type.isNonNull = true) : ∃ inner, type = .nonNull inner := by
  cases type with
  | named name => cases required
  | list item => cases required
  | nonNull inner => exact ⟨inner,rfl⟩

namespace Scope

/-- A variable has no value when it is asked for at a place. The first declaration of a name
counts. -/
inductive Unresolved (scope : Scope) (name : Name) (location : Location) : Problem → Prop
  | undeclared (absent : ∀ declaration ∈ scope.operation.declarations, declaration.name ≠ name) :
      Unresolved scope name location (.undefinedVariable name.text location)
  | unset (before after : List Document.Declaration) (declaration : Document.Declaration)
      (declared : scope.operation.declarations = before ++ declaration :: after)
      (named : declaration.name = name) (first : ∀ other ∈ before, other.name ≠ name)
      (inner : Document.TypeRef) (required : declaration.type = .nonNull inner)
      (plain : declaration.default? = none)
      (missing : ∀ value, (name.text,value) ∉ scope.request.values) :
      Unresolved scope name location (.missingValue name.text location)

/-- A value that is reached mentions a variable that is not left to be evaluated later, and the
problems of that value point to this place. -/
structure Requires (scope : Scope) (selections : List Selection) (name : Name)
    (location : Location) : Prop where
  mentioned : ∃ selection, scope.request.Reaches selections selection ∧
    ∃ value ∈ selection.values, value.1 = location ∧ name ∈ value.2.references
  immediate : ¬ (scope.settings.expressionVariables = true ∧ isExpressionName name.text = true)

/-- A problem is what it says: of the fragments and variables that can be reached. -/
inductive Genuine (scope : Scope) (selections : List Selection) : Problem → Prop
  | unknownFragment (name : Name) (location : Location) (directives : List Document.Directive)
      (reached : scope.request.Reaches selections (.spread name location directives))
      (undefined : ∀ fragment ∈ scope.request.fragments, fragment.name ≠ name) :
      Genuine scope selections (.unknownFragment name.text location)
  | recursiveFragment (name : Name) (location outer : Location)
      (directives outerDirectives : List Document.Directive) (fragment : Document.Fragment)
      (reached : scope.request.Reaches selections (.spread name outer outerDirectives))
      (found : scope.request.fragment? name = some fragment)
      (again : scope.request.Reaches fragment.selections.toList
        (.spread name location directives)) :
      Genuine scope selections (.recursiveFragment name.text location)
  | unresolvedVariable (name : Name) (location : Location) (problem : Problem)
      (required : scope.Requires selections name location)
      (unresolved : scope.Unresolved name location problem) : Genuine scope selections problem

theorem Genuine.mono {scope : Scope} {outer inner : List Selection} {problem : Problem}
    (within : ∀ first ∈ inner, scope.request.Reaches outer first)
    (genuine : scope.Genuine inner problem) : scope.Genuine outer problem := by
  cases genuine with
  | unknownFragment name location directives reached undefined =>
    exact .unknownFragment name location directives (reached.trans within) undefined
  | recursiveFragment name location outer directives outerDirectives fragment reached found again =>
    exact .recursiveFragment name location outer directives outerDirectives fragment
      (reached.trans within) found again
  | unresolvedVariable name location problem required unresolved =>
    obtain ⟨⟨selection,reached,value,inside⟩,immediate⟩ := required
    exact .unresolvedVariable name location problem
      ⟨⟨selection,reached.trans within,value,inside⟩,immediate⟩ unresolved

section Conversion

variable {scope : Scope} {location : Location} {problem : Problem}

private theorem unresolved_of_request_variableTerm_error {name : Name}
    (failed : scope.request.variableTerm scope.operation name.text location = .error problem) :
    scope.Unresolved name location problem := by
  cases Request.resolves_of_variableTerm_eq failed with
  | undeclared absent =>
    refine .undeclared ?_
    intro declaration inside same
    have other := List.find?_eq_none.mp absent declaration inside
    exact other (by simp [same])
  | unset declaration found missing plain required =>
    obtain ⟨named,before,after,declared,first⟩ := List.find?_eq_some_iff_append.mp found
    obtain ⟨inner,typed⟩ := Document.TypeRef.exists_nonNull_of_isNonNull required
    refine .unset before after declaration declared ?_ ?_ inner typed plain
      (Json.not_mem_of_get?_eq_none missing)
    · exact Name.eq_of_text_eq (of_decide_eq_true named)
    · intro other inside same
      have differs := first other inside
      simp [same] at differs

private theorem unresolved_of_variableTerm_error {name : Name}
    (failed : scope.variableTerm name location = .error problem) :
    ¬ (scope.settings.expressionVariables = true ∧ isExpressionName name.text = true) ∧
      scope.Unresolved name location problem := by
  by_cases deferred : (scope.settings.expressionVariables && isExpressionName name.text) = true
  · rw [variableTerm_of_deferred deferred] at failed
    cases failed
  · rw [variableTerm_of_immediate deferred] at failed
    exact ⟨by simpa using deferred,unresolved_of_request_variableTerm_error failed⟩

mutual

theorem exists_reference_of_term_error : (value : Document.Value) →
    scope.term location value = .error problem →
    ∃ name ∈ value.references, scope.variableTerm name location = .error problem
  | .reference name, failed => ⟨name,by simp [Document.Value.references],failed⟩
  | .list items, failed => exists_reference_of_terms_error items (map_eq_error_iff.mp failed)
  | .object members, failed =>
    exists_reference_of_arguments_error members (map_eq_error_iff.mp failed)

private theorem exists_reference_of_terms_error : (items : List Document.Value) →
    scope.terms location items = .error problem →
    ∃ name ∈ Document.Value.itemReferences items, scope.variableTerm name location = .error problem
  | item :: items, failed => by
    rw [terms] at failed
    rcases error_or_error_of_bind failed with head | tail
    · obtain ⟨name,inside,missing⟩ := exists_reference_of_term_error item head
      exact ⟨name,List.mem_append_left _ inside,missing⟩
    · obtain ⟨name,inside,missing⟩ := exists_reference_of_terms_error items tail
      exact ⟨name,List.mem_append_right _ inside,missing⟩

private theorem exists_reference_of_arguments_error : (members : Document.Arguments) →
    scope.arguments location members = .error problem →
    ∃ name ∈ Document.Value.memberReferences members,
      scope.variableTerm name location = .error problem
  | (key,value) :: members, failed => by
    rw [arguments] at failed
    rcases error_or_error_of_bind failed with head | tail
    · obtain ⟨name,inside,missing⟩ := exists_reference_of_term_error value head
      exact ⟨name,List.mem_append_left _ inside,missing⟩
    · obtain ⟨name,inside,missing⟩ := exists_reference_of_arguments_error members tail
      exact ⟨name,List.mem_append_right _ inside,missing⟩

end

private theorem exists_term_error_of_arguments_error {members : Document.Arguments}
    (failed : scope.arguments location members = .error problem) :
    ∃ member ∈ members, scope.term location member.2 = .error problem := by
  induction members with
  | nil => cases failed
  | cons member members ih =>
    rw [arguments] at failed
    rcases error_or_error_of_bind failed with head | tail
    · exact ⟨member,by simp,head⟩
    · obtain ⟨later,inside,missing⟩ := ih tail
      exact ⟨later,List.mem_cons_of_mem member inside,missing⟩

theorem exists_term_error_of_directives_error {written : List Document.Directive}
    (failed : scope.directives written = .error problem) :
    ∃ value ∈ written.flatMap Document.Directive.values,
      scope.term value.1 value.2 = .error problem := by
  induction written with
  | nil => cases failed
  | cons first rest ih =>
    rw [directives] at failed
    rw [List.flatMap_cons]
    rcases error_or_error_of_bind failed with head | tail
    · obtain ⟨member,inside,missing⟩ :=
        exists_term_error_of_arguments_error (error_of_bind_pure head)
      refine ⟨(first.location,member.2),List.mem_append_left _ ?_,missing⟩
      exact List.mem_map_of_mem inside
    · obtain ⟨value,inside,missing⟩ := ih tail
      exact ⟨value,List.mem_append_right _ inside,missing⟩

private theorem exists_term_error_of_step_error {field : Document.Field}
    (failed : scope.step field = .error problem) :
    ∃ value ∈ field.values, scope.term value.1 value.2 = .error problem := by
  rw [step] at failed
  rcases error_or_error_of_bind failed with head | tail
  · obtain ⟨member,inside,missing⟩ := exists_term_error_of_arguments_error head
    exact ⟨(field.location,member.2),List.mem_append_left _ (List.mem_map_of_mem inside),missing⟩
  · obtain ⟨value,inside,missing⟩ := exists_term_error_of_directives_error tail
    exact ⟨value,List.mem_append_right _ inside,missing⟩

end Conversion

section Walk

variable {scope : Scope} {entered : List Name} {selections : List Selection} {problem : Problem}

theorem Genuine.of_term_error {selection : Selection}
    (reached : scope.request.Reaches selections selection) {value : Location × Document.Value}
    (inside : value ∈ selection.values) (failed : scope.term value.1 value.2 = .error problem) :
    scope.Genuine selections problem := by
  obtain ⟨name,mentioned,missing⟩ := exists_reference_of_term_error value.2 failed
  obtain ⟨immediate,unresolved⟩ := unresolved_of_variableTerm_error missing
  exact .unresolvedVariable name value.1 problem
    ⟨⟨selection,reached,value,inside,rfl,mentioned⟩,immediate⟩ unresolved

private theorem selectionPaths_spread_error {name : Name} {location : Location}
    {directives : List Document.Directive}
    (failed : scope.selectionPaths entered (.spread name location directives) = .error problem) :
    (name ∈ entered ∧ problem = .recursiveFragment name.text location) ∨
    (scope.request.fragment? name = none ∧ problem = .unknownFragment name.text location) ∨
    ∃ fragment, name ∉ entered ∧ scope.request.fragment? name = some fragment ∧
      (scope.listPaths (name :: entered) fragment.selections.toList = .error problem ∨
        scope.directives directives = .error problem) := by
  by_cases inside : name ∈ entered
  · rw [selectionPaths_spread_entered scope location directives inside] at failed
    cases failed
    exact .inl ⟨inside,rfl⟩
  · cases found : scope.request.fragment? name with
    | none =>
      rw [selectionPaths_spread_unknown scope location directives inside found] at failed
      cases failed
      exact .inr (.inl ⟨rfl,rfl⟩)
    | some fragment =>
      rw [selectionPaths_spread_known scope location directives inside found,
        paths_eq_listPaths] at failed
      exact .inr (.inr ⟨fragment,inside,rfl,error_or_error_of_bind failed⟩)

private theorem Genuine.of_unknown {name : Name} {location : Location}
    {directives : List Document.Directive}
    (reached : scope.request.Reaches selections (.spread name location directives))
    (undefined : scope.request.fragment? name = none) :
    scope.Genuine selections (.unknownFragment name.text location) := by
  refine .unknownFragment name location directives reached ?_
  intro fragment inside same
  have other := List.find?_eq_none.mp undefined fragment (List.mem_reverse.mpr inside)
  exact other (by simp [same])

/-- What a walk blames: something genuine, or a spread of a fragment that it stands in. -/
inductive Blames (scope : Scope) (entered : List Name) (selections : List Selection)
    (problem : Problem) : Prop
  | genuine (genuine : scope.Genuine selections problem)
  | entered (name : Name) (location : Location) (directives : List Document.Directive)
      (inside : name ∈ entered)
      (reached : scope.request.Reaches selections (.spread name location directives))
      (same : problem = .recursiveFragment name.text location)

namespace Blames

variable {selection : Selection} {rest : List Selection}

theorem mono {outer inner : List Selection}
    (within : ∀ first ∈ inner, scope.request.Reaches outer first)
    (blames : scope.Blames entered inner problem) : scope.Blames entered outer problem := by
  cases blames with
  | genuine genuine => exact .genuine (genuine.mono within)
  | entered name location directives inside reached same =>
    exact .entered name location directives inside (reached.trans within) same

theorem tail (blames : scope.Blames entered rest problem) :
    scope.Blames entered (selection :: rest) problem :=
  blames.mono (scope.request.reaches_of_mem_tail selection rest)

theorem contents (blames : scope.Blames entered (scope.request.contents selection) problem) :
    scope.Blames entered (selection :: rest) problem :=
  blames.mono (scope.request.reaches_of_mem_contents selection rest)

theorem of_term_error
    (failed : ∃ value ∈ selection.values, scope.term value.1 value.2 = .error problem) :
    scope.Blames entered (selection :: rest) problem := by
  obtain ⟨value,inside,missing⟩ := failed
  exact .genuine (.of_term_error (scope.request.reaches_head selection rest) inside missing)

theorem leave {name : Name} {location : Location} {directives : List Document.Directive}
    {fragment : Document.Fragment} (found : scope.request.fragment? name = some fragment)
    (blames : scope.Blames (name :: entered) fragment.selections.toList problem) :
    scope.Blames entered (.spread name location directives :: rest) problem := by
  have below : scope.request.contents (.spread name location directives) =
      fragment.selections.toList := by
    simp only [Request.contents,found,Option.map_some,Option.getD_some]
  cases blames with
  | genuine genuine =>
    rw [← below] at genuine
    exact contents (.genuine genuine)
  | entered other place written inside reached same =>
    subst same
    rcases List.mem_cons.mp inside with rfl | before
    · exact .genuine (.recursiveFragment other place location written directives fragment
        (scope.request.reaches_head _ rest) found reached)
    · rw [← below] at reached
      exact contents (.entered other place written before reached rfl)

end Blames

theorem blames_of_listPaths_error (failed : scope.listPaths entered selections = .error problem) :
    scope.Blames entered selections problem := by
  induction entered, selections using Request.walk_induction scope.request with
  | nil entered => cases failed
  | leaf entered field rest restIH =>
    rcases error_or_error_of_bind failed with head | tail
    · rw [selectionPaths_leaf] at head
      exact .of_term_error (exists_term_error_of_step_error (error_of_bind_pure head))
    · exact (restIH tail).tail
  | branch entered field body rest bodyIH restIH =>
    rcases error_or_error_of_bind failed with head | tail
    · rw [selectionPaths_branch,paths_eq_listPaths] at head
      rcases error_or_error_of_bind head with own | inner
      · exact .of_term_error (exists_term_error_of_step_error own)
      · exact (bodyIH inner).contents
    · exact (restIH tail).tail
  | spread entered name location directives rest bodyIH restIH =>
    rcases error_or_error_of_bind failed with head | tail
    · have reached := scope.request.reaches_head (.spread name location directives) rest
      rcases selectionPaths_spread_error head with
        ⟨inside,same⟩ | ⟨undefined,rfl⟩ | ⟨fragment,fresh,found,inner | own⟩
      · exact .entered name location directives inside reached same
      · exact .genuine (.of_unknown reached undefined)
      · exact .leave found (bodyIH fragment fresh found inner)
      · exact .of_term_error (exists_term_error_of_directives_error own)
    · exact (restIH tail).tail
  | inline entered condition? directives body rest bodyIH restIH =>
    rcases error_or_error_of_bind failed with head | tail
    · rw [selectionPaths_inline,paths_eq_listPaths] at head
      rcases error_or_error_of_bind head with inner | own
      · exact (bodyIH inner).contents
      · exact .of_term_error (exists_term_error_of_directives_error own)
    · exact (restIH tail).tail

end Walk

/-- The problem of an operation is real. A fragment that is unknown or recursive is spread at that
place, and a variable without a value is asked for there. There are no other problems. -/
theorem genuine_of_operationPaths_error (scope : Scope) (problem : Problem)
    (failed : scope.operationPaths = .error problem) :
    scope.Genuine scope.operation.selections.toList problem := by
  rw [operationPaths_eq_listPaths] at failed
  cases blames_of_listPaths_error failed with
  | genuine genuine => exact genuine
  | entered name location directives inside _ _ => cases inside

-- each operation has a problem of its own, below fields, fragments, lists and objects
def faulty : Submission where
  text := "query A{a{...N}} query B{b(x:[{y:$m}])} query C($m:I!){...L} query D{...{...X}}" ++
    "fragment N on T{n{...N}} fragment L on T{...@w(x:$m){l}}"
  values := [("n",.null)]
  several := true
  operationName? := none

def problem? (scope : Scope) : Option Problem :=
  match scope.operationPaths with
  | .error problem => some problem
  | .ok _ => none

private theorem operationPaths_of_problem? {scope : Scope} {problem : Problem}
    (found : scope.problem? = some problem) : scope.operationPaths = .error problem := by
  unfold problem? at found
  split at found
  · cases found
    assumption
  · cases found

theorem faulty_genuine :
    ∃ request, Request.ofSubmission faulty = .ok request ∧
      List.Forall₂ (fun operation problem =>
          Scope.operationPaths ⟨.allOff,request,operation⟩ = .error problem ∧
            Scope.Genuine ⟨.allOff,request,operation⟩ operation.selections.toList problem)
        request.operations
        [.recursiveFragment "N" ⟨1,101⟩,.undefinedVariable "m" ⟨1,26⟩,
          .missingValue "m" ⟨1,124⟩,.unknownFragment "X" ⟨1,77⟩] := by
  have computed : (Request.ofSubmission faulty).toOption.any (fun request =>
      request.operations.map (fun operation => problem? ⟨.allOff,request,operation⟩) =
        [Problem.recursiveFragment "N" ⟨1,101⟩,.undefinedVariable "m" ⟨1,26⟩,
          .missingValue "m" ⟨1,124⟩,.unknownFragment "X" ⟨1,77⟩].map some) = true := by
    decide +kernel
  obtain ⟨request,accepted,found⟩ := exists_ok_of_any computed
  have each := List.forall₂_eq_eq_eq.symm ▸ of_decide_eq_true found
  rw [List.forall₂_map_left_iff,List.forall₂_map_right_iff] at each
  refine ⟨request,accepted,each.imp ?_⟩
  intro operation problem failed
  have stopped := operationPaths_of_problem? failed
  exact ⟨stopped,genuine_of_operationPaths_error _ problem stopped⟩

end Scope

end FlatQuery
