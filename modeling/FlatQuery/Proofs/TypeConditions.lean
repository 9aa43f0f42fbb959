import FlatQuery.Proofs.Outline

/-! What type conditions mean. Whatever the types of the objects are, the paths whose guards hold
are those of a walk that enters a fragment only where its type condition holds. No directive that
a client can write is a guard. -/

namespace FlatQuery

structure Ancestor where
  name : String
  arguments : Arguments
  alias? : Option String

def Step.ancestor (step : Step) : Ancestor := ⟨step.name,step.arguments,step.alias?⟩

namespace Directive

def guardedType? : Directive → Option String
  | ⟨"include",[("if",.call ⟨"or",[("values",.list
      [.call ⟨"isType",[("type",.string type)],none,[]⟩,
       .call ⟨"implements",[("interface",.string same)],none,[]⟩])],none,[]⟩)]⟩ =>
    if type = same then some type else none
  | _ => none

theorem guardedType?_eq_some_iff {directive : Directive} {type : String} :
    directive.guardedType? = some type ↔ directive = typeGuard type := by
  constructor
  · intro found
    unfold guardedType? at found
    split at found
    · split at found
      · subst_vars
        cases found
        rfl
      · cases found
    · cases found
  · intro same
    subst same
    simp [typeGuard,guardedType?,Step.applied]

theorem typeGuard_injective {first second : String} (same : typeGuard first = typeGuard second) :
    first = second := by
  have found := guardedType?_eq_some_iff.mpr same
  rw [guardedType?_eq_some_iff.mpr rfl] at found
  exact Option.some.inj found

def IsGuard (directive : Directive) : Prop := ∃ type, directive = typeGuard type

instance : DecidablePred IsGuard := fun directive =>
  decidable_of_iff (directive.guardedType?.isSome = true) (by
    simp only [Option.isSome_iff_exists,guardedType?_eq_some_iff,IsGuard])

/-- The guards among the directives of a field hold below the given ancestors. -/
def Pass (holds : List Ancestor → String → Bool) (above : List Ancestor)
    (directives : List Directive) : Prop :=
  ∀ type, typeGuard type ∈ directives → holds above type = true

variable (holds : List Ancestor → String → Bool) (above : List Ancestor)

instance (directives : List Directive) : Decidable (Pass holds above directives) :=
  decidable_of_iff (∀ directive ∈ directives, ∀ type ∈ directive.guardedType?, holds above type = true) (by
    simp only [Option.mem_def,guardedType?_eq_some_iff,Pass]
    grind)

@[simp] theorem pass_nil : Pass holds above [] := by
  intro type inside
  cases inside

@[simp] theorem pass_append (first second : List Directive) :
    Pass holds above (first ++ second) ↔ Pass holds above first ∧ Pass holds above second := by
  simp only [Pass,List.mem_append]
  grind

@[simp] theorem pass_guards (condition? : Option Name) :
    Pass holds above (guards condition?) ↔
      condition?.all (fun type => holds above type.text) = true := by
  cases condition? with
  | none => simp [guards]
  | some condition =>
    simp only [Pass,guards,Option.toList_some,List.map_cons,List.map_nil,List.mem_singleton,
      Option.all_some]
    constructor
    · intro passes
      exact passes _ rfl
    · intro passes type same
      rwa [typeGuard_injective same]

def NoGuard (directives : List Directive) : Prop := ∀ directive ∈ directives, ¬ directive.IsGuard

variable {holds} {above} {directives : List Directive}

theorem NoGuard.pass (plain : NoGuard directives) : Pass holds above directives := by
  intro type inside
  exact absurd ⟨type,rfl⟩ (plain _ inside)

def unguarded (directives : List Directive) : List Directive :=
  directives.filter fun directive => ¬ directive.IsGuard

@[simp] theorem unguarded_nil : unguarded [] = [] := rfl

@[simp] theorem unguarded_append (first second : List Directive) :
    unguarded (first ++ second) = unguarded first ++ unguarded second := List.filter_append ..

theorem NoGuard.unguarded_eq (plain : NoGuard directives) : unguarded directives = directives := by
  apply List.filter_eq_self.mpr
  simpa [NoGuard] using plain

@[simp] theorem unguarded_guards (condition? : Option Name) : unguarded (guards condition?) = [] := by
  cases condition? with
  | none => rfl
  | some condition =>
    have guard : (typeGuard condition.text).IsGuard := ⟨_,rfl⟩
    simp [unguarded,guards,guard]

end Directive

open Directive (Pass NoGuard unguarded)

def Step.unguarded (step : Step) : Step :=
  { step with directives := Directive.unguarded step.directives }

namespace Path

def unguarded (path : Path) : Path := path.map Step.unguarded

private theorem ancestor_unguarded (path : Path) :
    path.unguarded.map Step.ancestor = path.map Step.ancestor := by
  simp [unguarded,Step.unguarded,Step.ancestor,Function.comp_def]

variable (holds : List Ancestor → String → Bool)

/-- Every guard on a path holds below the fields before it. -/
def Admitted (path : Path) : Prop :=
  ∀ i step, path[i]? = some step → Pass holds ((path.take i).map Step.ancestor) step.directives

private theorem forall_fin_iff_admitted (path : Path) :
    (∀ i : Fin path.length, Pass holds ((path.take i).map Step.ancestor) path[i].directives) ↔
      path.Admitted holds := by
  constructor
  · intro passes i step found
    obtain ⟨bound,rfl⟩ := List.getElem?_eq_some_iff.mp found
    exact passes ⟨i,bound⟩
  · intro admitted i
    exact admitted i path[i] (List.getElem?_eq_getElem i.isLt)

instance (path : Path) : Decidable (path.Admitted holds) :=
  decidable_of_iff _ (forall_fin_iff_admitted holds path)

private theorem admitted_nil : Admitted holds [] := by
  intro i step found
  cases found

private theorem admitted_append_singleton (path : Path) (step : Step) :
    Admitted holds (path ++ [step]) ↔
      path.Admitted holds ∧ Pass holds (path.map Step.ancestor) step.directives := by
  constructor
  · intro admitted
    constructor
    · intro i before found
      have bound := (List.getElem?_eq_some_iff.mp found).1
      have passes := admitted i before (by rw [List.getElem?_append_left bound]; exact found)
      rwa [List.take_append_of_le_length (by omega)] at passes
    · simpa using admitted path.length step (by simp)
  · intro both i last found
    obtain ⟨admitted,passes⟩ := both
    rcases Nat.lt_trichotomy i path.length with before | rfl | after
    · rw [List.getElem?_append_left before] at found
      rw [List.take_append_of_le_length (by omega)]
      exact admitted i last found
    · have same : step = last := by simpa using found
      subst same
      simpa using passes
    · rw [List.getElem?_append_right (by omega),List.getElem?_singleton] at found
      simp [show i - path.length ≠ 0 by omega] at found

end Path

namespace Outline

def Unguarded (outline : Outline) : Prop :=
  outline.Every (fun step => NoGuard step.directives) NoGuard

/-- The paths of a walk that enters a fragment only where its type condition holds. -/
def typedBelow (holds : List Ancestor → String → Bool) (above : Path) (crossed : List Directive) :
    Outline → List Path
  | nil => []
  | leaf step rest =>
    (above ++ [{ step with directives := crossed ++ step.directives }]) ::
      rest.typedBelow holds above crossed
  | branch step body rest =>
    body.typedBelow holds (above ++ [{ step with directives := crossed ++ step.directives }]) [] ++
      rest.typedBelow holds above crossed
  | fragment condition? directives body rest =>
    (if condition?.all (fun type => holds (above.map Step.ancestor) type.text) then
      body.typedBelow holds above (crossed ++ directives) else []) ++
      rest.typedBelow holds above crossed

theorem admitted_pathsBelow (holds : List Ancestor → String → Bool) (outline : Outline)
    (plain : outline.Unguarded) (above : Path) (crossed : List Directive) :
    ((outline.pathsBelow above crossed).filter fun path => path.Admitted holds).map Path.unguarded =
      if above.Admitted holds ∧ Pass holds (above.map Step.ancestor) crossed then
        outline.typedBelow holds above.unguarded (unguarded crossed)
      else [] := by
  induction outline generalizing above crossed with
  | nil => simp [pathsBelow,typedBelow]
  | leaf step rest restIH =>
    obtain ⟨own,plainRest⟩ := plain
    simp only [pathsBelow,typedBelow,List.filter_cons,Path.admitted_append_singleton,
      Directive.pass_append,own.pass,and_true]
    by_cases admitted : above.Admitted holds ∧ Pass holds (above.map Step.ancestor) crossed
    · simp [restIH plainRest,admitted,Path.unguarded,Step.unguarded,own.unguarded_eq]
    · simp [restIH plainRest,admitted]
  | branch step body rest bodyIH restIH =>
    obtain ⟨own,plainBody,plainRest⟩ := plain
    simp only [pathsBelow,typedBelow,List.filter_append,List.map_append,bodyIH plainBody,
      restIH plainRest,Path.admitted_append_singleton,Directive.pass_append,own.pass,
      Directive.pass_nil,and_true]
    by_cases admitted : above.Admitted holds ∧ Pass holds (above.map Step.ancestor) crossed
    · simp [admitted,Path.unguarded,Step.unguarded,own.unguarded_eq]
    · simp [admitted]
  | fragment condition? directives body rest bodyIH restIH =>
    obtain ⟨own,plainBody,plainRest⟩ := plain
    simp only [pathsBelow,typedBelow,List.filter_append,List.map_append,bodyIH plainBody,
      restIH plainRest,Directive.pass_append,Directive.pass_guards,own.pass,and_true]
    by_cases admitted : above.Admitted holds ∧ Pass holds (above.map Step.ancestor) crossed
    · simp [admitted,Path.ancestor_unguarded,own.unguarded_eq]
    · simp [admitted,← and_assoc]

end Outline

namespace Scope

private theorem ofJson_ne_call (json : Json) (step : Step) : Term.ofJson json ≠ .call step := by
  cases json with
  | integer value =>
    simp only [Term.ofJson,Term.ofInteger]
    split <;> simp
  | _ => simp [Term.ofJson]

private theorem variableTerm_ne_call (scope : Scope) (name : Name) (location : Location)
    (step : Step) : scope.variableTerm name location ≠ .ok (.call step) := by
  intro ok
  by_cases deferred : (scope.settings.expressionVariables && isExpressionName name.text) = true
  · rw [variableTerm_of_deferred deferred] at ok
    cases ok
  · rw [variableTerm_of_immediate deferred] at ok
    generalize called : Term.call step = term at ok
    cases Request.resolves_of_variableTerm_eq ok with
    | submitted declaration value => exact ofJson_ne_call value step called.symm
    | byDefault declaration value => exact ofJson_ne_call value.toJson step called.symm
    | null => cases called

private theorem call_name_of_term_ok {scope : Scope} {location : Location} {value : Document.Value}
    {step : Step} (ok : scope.term location value = .ok (.call step)) : step.name = "sprintf" := by
  cases value with
  | reference name =>
    rw [term] at ok
    exact absurd ok (variableTerm_ne_call scope name location step)
  | string literal =>
    simp only [term,stringTerm,Embedding.term,Except.ok.injEq] at ok
    split at ok
    · split at ok
      · cases ok
      · cases ok
        rfl
    · cases ok
  | list items =>
    rw [term] at ok
    cases computed : scope.terms location items <;> simp [computed,Except.map] at ok
  | object members =>
    rw [term] at ok
    cases computed : scope.arguments location members <;> simp [computed,Except.map] at ok
  | _ => simp [term] at ok

private theorem directive_not_guard {scope : Scope} {written : Document.Directive}
    {converted : Directive}
    (ok : scope.directive written = .ok converted) : ¬ converted.IsGuard := by
  intro guard
  obtain ⟨type,rfl⟩ := guard
  obtain ⟨_,computed⟩ := directive_ok_iff.mp ok
  obtain ⟨_,_,_,_,called⟩ := exists_term_of_mem computed (List.mem_singleton.mpr rfl)
  have name := call_name_of_term_ok called
  simp [Step.applied] at name

private theorem directives_noGuard {scope : Scope} {written : List Document.Directive}
    {converted : List Directive} (ok : scope.directives written = .ok converted) :
    NoGuard converted := by
  intro directive inside
  obtain ⟨_,_,found⟩ := exists_directive_of_mem ok inside
  exact directive_not_guard found

theorem Outlines.unguarded {scope : Scope} {selections : List Document.Selection} {outline : Outline}
    (outlined : scope.Outlines selections outline) : outline.Unguarded :=
  outlined.every (fun _ _ converted => directives_noGuard converted.directives)
    fun _ _ converted => directives_noGuard converted

/-- However the type conditions turn out, the paths whose guards hold are, without their guards,
those of the walk that enters a fragment only where its type condition holds. Directives that are
written in the document are never taken for guards. -/
theorem admitted_operationPaths (scope : Scope) (holds : List Ancestor → String → Bool)
    (paths : List Path) (ok : scope.operationPaths = .ok paths) :
    (∃ outline,
      (∀ other, scope.Outlines scope.operation.selections.toList other ↔ other = outline) ∧
      (paths.filter fun path => path.Admitted holds).map Path.unguarded =
        outline.typedBelow holds [] []) ∧
    ∀ written converted, scope.directive written = .ok converted →
      ∀ type, converted ≠ .typeGuard type := by
  constructor
  · rw [operationPaths_eq_listPaths] at ok
    obtain ⟨outline,outlined,rfl⟩ := exists_outline scope [] _ paths ok
    refine ⟨outline,outlined.forall_iff_eq,?_⟩
    rw [outline.admitted_pathsBelow holds outlined.unguarded]
    simp [Path.admitted_nil,Path.unguarded]
  · intro written converted found type same
    exact directive_not_guard found ⟨type,same⟩

theorem nestedSample_admitted :
    (∃ outline,
      (∀ other, nestedSample.Outlines nestedSample.operation.selections.toList other ↔
        other = outline) ∧
      [[.plain "a",⟨"b",[("n",.int 1)],some "k",[⟨"x",[]⟩,⟨"y",[]⟩]⟩,.plain "c"],
       [.plain "a",⟨"d",[],none,[⟨"x",[]⟩]⟩]] =
        outline.typedBelow (fun above type => above.length == 1 && type == "T") [] []) ∧
    ∀ written converted, nestedSample.directive written = .ok converted →
      ∀ type, converted ≠ .typeGuard type :=
  admitted_operationPaths nestedSample (fun above type => above.length == 1 && type == "T") _
    nestedSample_operationPaths

end Scope

end FlatQuery
