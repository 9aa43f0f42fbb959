import FlatQuery.Proofs.Outline

/-! When a walk succeeds. It keeps the fragments it has entered on a stack, but whether it succeeds
depends only on what can be reached: spreads without a fragment, fragments that reach themselves
and values that do not convert are the only reasons to fail. -/

namespace FlatQuery

open Document (Selection SelectionSet)

namespace Document

def Directive.values (directive : Directive) : List (Location × Value) :=
  directive.arguments.map fun argument => (directive.location,argument.2)

def Field.values (field : Field) : List (Location × Value) :=
  field.arguments.map (fun argument => (field.location,argument.2)) ++
    field.directives.flatMap Directive.values

/-- The values written on a selection itself, not on those below it. -/
def Selection.values : Selection → List (Location × Value)
  | .leaf field => field.values
  | .branch field _ => field.values
  | .spread _ _ directives => directives.flatMap Directive.values
  | .inline _ directives _ => directives.flatMap Directive.values

end Document

namespace Request

/-- The selections right below a selection; below a spread stand those of its fragment. -/
def contents (request : Request) : Selection → List Selection
  | .leaf _ => []
  | .branch _ body => body.toList
  | .spread name _ _ => ((request.fragment? name).map (·.selections.toList)).getD []
  | .inline _ _ body => body.toList

/-- A selection is found among the given ones or at any depth below them. -/
inductive Reaches (request : Request) (selections : List Selection) : Selection → Prop
  | direct (selection : Selection) (inside : selection ∈ selections) :
      Reaches request selections selection
  | nested (outer inner : Selection) (reached : Reaches request selections outer)
      (inside : inner ∈ request.contents outer) : Reaches request selections inner

theorem Reaches.holds {request : Request} {selections : List Selection} (holds : Selection → Prop)
    (given : ∀ selection ∈ selections, holds selection)
    (below : ∀ outer, holds outer → ∀ inner ∈ request.contents outer, holds inner)
    {selection : Selection} (reached : request.Reaches selections selection) : holds selection := by
  induction reached with
  | direct selection inside => exact given selection inside
  | nested outer inner _ inside ih => exact below outer ih inner inside

theorem Reaches.trans {request : Request} {outer inner : List Selection} {selection : Selection}
    (within : ∀ first ∈ inner, request.Reaches outer first)
    (reached : request.Reaches inner selection) : request.Reaches outer selection := by
  refine reached.holds (request.Reaches outer) within ?_
  intro between found selection inside
  exact .nested between selection found inside

theorem Reaches.cons_cases {request : Request} {first found : Selection}
    {rest : List Selection} (reached : request.Reaches (first :: rest) found) :
    found = first ∨ request.Reaches (request.contents first) found ∨ request.Reaches rest found := by
  induction reached with
  | direct selection inside =>
    rcases List.mem_cons.mp inside with same | later
    · exact .inl same
    · exact .inr (.inr (.direct selection later))
  | nested outer inner _ inside ih =>
    rcases ih with rfl | below | later
    · exact .inr (.inl (.direct inner inside))
    · exact .inr (.inl (.nested outer inner below inside))
    · exact .inr (.inr (.nested outer inner later inside))

theorem not_reaches_nil {request : Request} {found : Selection} :
    ¬ request.Reaches [] found := by
  intro reached
  refine reached.holds (fun _ => False) (by simp) ?_
  intro _ impossible
  exact impossible.elim

section

variable (request : Request) (selection : Selection) (rest : List Selection)

theorem reaches_head : request.Reaches (selection :: rest) selection := .direct selection (by simp)

theorem reaches_of_mem_tail : ∀ other ∈ rest, request.Reaches (selection :: rest) other :=
  fun other inside => .direct other (List.mem_cons_of_mem selection inside)

theorem reaches_of_mem_contents :
    ∀ inner ∈ request.contents selection, request.Reaches (selection :: rest) inner :=
  fun inner inside => .nested selection inner (request.reaches_head selection rest) inside

end

end Request

namespace Scope

/-- Every spread that is reached names a fragment, no fragment that is reached reaches a spread of
itself, and every value that is reached has a term. -/
structure Resolvable (scope : Scope) (selections : List Selection) : Prop where
  defined : ∀ name location directives,
    scope.request.Reaches selections (.spread name location directives) →
      ∃ fragment, scope.request.fragment? name = some fragment
  acyclic : ∀ name location directives fragment,
    scope.request.Reaches selections (.spread name location directives) →
      scope.request.fragment? name = some fragment →
      ∀ location directives,
        ¬ scope.request.Reaches fragment.selections.toList (.spread name location directives)
  converted : ∀ selection, scope.request.Reaches selections selection →
    ∀ value ∈ selection.values, ∃ term, scope.term value.1 value.2 = .ok term

theorem Resolvable.mono {scope : Scope} {outer inner : List Selection}
    (within : ∀ first ∈ inner, scope.request.Reaches outer first)
    (resolvable : scope.Resolvable outer) : scope.Resolvable inner where
  defined name location directives reached :=
    resolvable.defined name location directives (reached.trans within)
  acyclic name location directives fragment reached :=
    resolvable.acyclic name location directives fragment (reached.trans within)
  converted selection reached := resolvable.converted selection (reached.trans within)

variable {scope : Scope}

theorem exists_arguments_iff {location : Location} {members : Document.Arguments} :
    (∃ arguments, scope.arguments location members = .ok arguments) ↔
      ∀ member ∈ members, ∃ term, scope.term location member.2 = .ok term := by
  induction members with
  | nil => simp [Scope.arguments]
  | cons member members ih =>
    simp only [List.forall_mem_cons,← ih]
    constructor
    · intro found
      obtain ⟨arguments,ok⟩ := found
      obtain ⟨first,rest,head,tail,rfl⟩ := arguments_cons_ok_iff.mp ok
      exact ⟨⟨first,head⟩,⟨rest,tail⟩⟩
    · intro both
      obtain ⟨⟨first,head⟩,⟨rest,tail⟩⟩ := both
      exact ⟨_,arguments_cons_ok_iff.mpr ⟨first,rest,head,tail,rfl⟩⟩

theorem exists_directive_iff {written : Document.Directive} :
    (∃ directive, scope.directive written = .ok directive) ↔
      ∀ value ∈ written.values, ∃ term, scope.term value.1 value.2 = .ok term := by
  simp only [Document.Directive.values,List.forall_mem_map]
  rw [← exists_arguments_iff]
  constructor
  · intro found
    obtain ⟨directive,ok⟩ := found
    exact ⟨_,(directive_ok_iff.mp ok).2⟩
  · intro found
    obtain ⟨arguments,ok⟩ := found
    exact ⟨⟨_,arguments⟩,directive_ok_iff.mpr ⟨rfl,ok⟩⟩

theorem exists_directives_iff {written : List Document.Directive} :
    (∃ directives, scope.directives written = .ok directives) ↔
      ∀ value ∈ written.flatMap Document.Directive.values,
        ∃ term, scope.term value.1 value.2 = .ok term := by
  induction written with
  | nil => simp [Scope.directives]
  | cons first rest ih =>
    simp only [List.flatMap_cons,List.forall_mem_append,← ih,← exists_directive_iff]
    constructor
    · intro found
      obtain ⟨directives,ok⟩ := found
      obtain ⟨head,tail,converted,remaining,rfl⟩ := directives_cons_ok_iff.mp ok
      exact ⟨⟨head,converted⟩,⟨tail,remaining⟩⟩
    · intro both
      obtain ⟨⟨head,converted⟩,⟨tail,remaining⟩⟩ := both
      exact ⟨_,directives_cons_ok_iff.mpr ⟨head,tail,converted,remaining,rfl⟩⟩

theorem exists_step_iff {field : Document.Field} :
    (∃ step, scope.step field = .ok step) ↔
      ∀ value ∈ field.values, ∃ term, scope.term value.1 value.2 = .ok term := by
  simp only [Document.Field.values,List.forall_mem_append,← exists_directives_iff,
    List.forall_mem_map]
  rw [← exists_arguments_iff]
  constructor
  · intro found
    obtain ⟨step,ok⟩ := found
    have converts := step_eq_ok_iff.mp ok
    exact ⟨⟨_,converts.arguments⟩,⟨_,converts.directives⟩⟩
  · intro both
    obtain ⟨⟨arguments,computed⟩,⟨directives,written⟩⟩ := both
    exact ⟨⟨_,arguments,_,directives⟩,step_eq_ok_iff.mpr ⟨rfl,computed,rfl,written⟩⟩

theorem exists_selectionPaths_of_mem {entered : List Name} {selections : List Selection}
    {paths : List Path} {selection : Selection}
    (ok : scope.listPaths entered selections = .ok paths) (inside : selection ∈ selections) :
    ∃ inner, scope.selectionPaths entered selection = .ok inner := by
  induction selections generalizing paths with
  | nil => cases inside
  | cons first rest ih =>
    obtain ⟨here,more,head,tail,rfl⟩ := listPaths_cons_ok_iff.mp ok
    rcases List.mem_cons.mp inside with rfl | later
    · exact ⟨here,head⟩
    · exact ih tail later

theorem exists_selectionPaths_of_reaches {entered : List Name} {selections : List Selection}
    {paths : List Path} {selection : Selection}
    (ok : scope.listPaths entered selections = .ok paths)
    (reached : scope.request.Reaches selections selection) :
    ∃ further inner, entered ⊆ further ∧ scope.selectionPaths further selection = .ok inner := by
  induction reached with
  | direct selection inside =>
    obtain ⟨inner,computed⟩ := exists_selectionPaths_of_mem ok inside
    exact ⟨entered,inner,List.Subset.refl _,computed⟩
  | nested outer selection _ inside ih =>
    obtain ⟨further,inner,grown,computed⟩ := ih
    cases outer with
    | leaf field => cases inside
    | branch field body =>
      obtain ⟨_,_,_,walked,_⟩ := selectionPaths_branch_ok_iff.mp computed
      obtain ⟨paths,found⟩ := exists_selectionPaths_of_mem walked inside
      exact ⟨further,paths,grown,found⟩
    | spread name location directives =>
      obtain ⟨_,fragment,_,_,defined,walked,_⟩ := selectionPaths_spread_ok_iff.mp computed
      simp only [Request.contents,defined,Option.map_some,Option.getD_some] at inside
      obtain ⟨paths,found⟩ := exists_selectionPaths_of_mem walked inside
      exact ⟨name :: further,paths,List.subset_cons_of_subset name grown,found⟩
    | inline condition? directives body =>
      obtain ⟨_,_,walked,_⟩ := selectionPaths_inline_ok_iff.mp computed
      obtain ⟨paths,found⟩ := exists_selectionPaths_of_mem walked inside
      exact ⟨further,paths,grown,found⟩

private theorem converted_of_selectionPaths_ok {entered : List Name} {selection : Selection}
    {paths : List Path} (ok : scope.selectionPaths entered selection = .ok paths) :
    ∀ value ∈ selection.values, ∃ term, scope.term value.1 value.2 = .ok term := by
  cases selection with
  | leaf field =>
    obtain ⟨step,converted,_⟩ := selectionPaths_leaf_ok_iff.mp ok
    exact exists_step_iff.mp ⟨step,converted⟩
  | branch field body =>
    obtain ⟨step,_,converted,_⟩ := selectionPaths_branch_ok_iff.mp ok
    exact exists_step_iff.mp ⟨step,converted⟩
  | spread name location directives =>
    obtain ⟨_,_,_,written,_,_,converted,_⟩ := selectionPaths_spread_ok_iff.mp ok
    exact exists_directives_iff.mp ⟨written,converted⟩
  | inline condition? directives body =>
    obtain ⟨_,written,_,converted,_⟩ := selectionPaths_inline_ok_iff.mp ok
    exact exists_directives_iff.mp ⟨written,converted⟩

theorem resolvable_of_listPaths_ok {entered : List Name} {selections : List Selection}
    {paths : List Path} (ok : scope.listPaths entered selections = .ok paths) :
    scope.Resolvable selections where
  defined name location directives reached := by
    obtain ⟨_,_,_,computed⟩ := exists_selectionPaths_of_reaches ok reached
    obtain ⟨_,fragment,_,_,found,_⟩ := selectionPaths_spread_ok_iff.mp computed
    exact ⟨fragment,found⟩
  acyclic name location directives fragment reached found location' directives' again := by
    obtain ⟨_,_,_,computed⟩ := exists_selectionPaths_of_reaches ok reached
    obtain ⟨_,same,_,_,found',walked,_⟩ := selectionPaths_spread_ok_iff.mp computed
    cases Option.some.inj (found.symm.trans found')
    -- A second spread of the name would be met with the name already entered.
    obtain ⟨_,_,grown,recomputed⟩ := exists_selectionPaths_of_reaches walked again
    exact (selectionPaths_spread_ok_iff.mp recomputed).1 (grown (by simp))
  converted selection reached := by
    obtain ⟨_,_,_,computed⟩ := exists_selectionPaths_of_reaches ok reached
    exact converted_of_selectionPaths_ok computed

/-- What a walk needs to succeed: no fragment it stands in is spread again. -/
structure Ready (scope : Scope) (entered : List Name) (selections : List Selection) : Prop where
  resolvable : scope.Resolvable selections
  fresh : ∀ name ∈ entered, ∀ location directives,
    ¬ scope.request.Reaches selections (.spread name location directives)

namespace Ready

variable {entered : List Name} {selection : Selection} {rest : List Selection}

theorem mono {outer inner : List Selection} (ready : scope.Ready entered outer)
    (within : ∀ first ∈ inner, scope.request.Reaches outer first) : scope.Ready entered inner where
  resolvable := ready.resolvable.mono within
  fresh name present location directives reached :=
    ready.fresh name present location directives (reached.trans within)

theorem tail (ready : scope.Ready entered (selection :: rest)) : scope.Ready entered rest :=
  ready.mono (scope.request.reaches_of_mem_tail selection rest)

theorem contents (ready : scope.Ready entered (selection :: rest)) :
    scope.Ready entered (scope.request.contents selection) :=
  ready.mono (scope.request.reaches_of_mem_contents selection rest)

theorem converted (ready : scope.Ready entered (selection :: rest)) :
    ∀ value ∈ selection.values, ∃ term, scope.term value.1 value.2 = .ok term :=
  ready.resolvable.converted selection (scope.request.reaches_head selection rest)

theorem enter {name : Name} {location : Location} {directives : List Document.Directive}
    {fragment : Document.Fragment}
    (ready : scope.Ready entered (.spread name location directives :: rest))
    (found : scope.request.fragment? name = some fragment) :
    scope.Ready (name :: entered) fragment.selections.toList := by
  have inner := ready.contents
  simp only [Request.contents,found,Option.map_some,Option.getD_some] at inner
  refine ⟨inner.resolvable,?_⟩
  intro other present
  rcases List.mem_cons.mp present with rfl | before
  · exact ready.resolvable.acyclic other location directives fragment
      (scope.request.reaches_head _ rest) found
  · exact inner.fresh other before

end Ready

theorem exists_listPaths_cons {entered : List Name} {selection : Selection} {rest : List Selection}
    (head : ∃ first, scope.selectionPaths entered selection = .ok first)
    (tail : ∃ more, scope.listPaths entered rest = .ok more) :
    ∃ paths, scope.listPaths entered (selection :: rest) = .ok paths := by
  obtain ⟨first,here⟩ := head
  obtain ⟨more,remaining⟩ := tail
  exact ⟨_,listPaths_cons_ok_iff.mpr ⟨first,more,here,remaining,rfl⟩⟩

theorem Ready.exists_listPaths {entered : List Name} {selections : List Selection}
    (ready : scope.Ready entered selections) :
    ∃ paths, scope.listPaths entered selections = .ok paths := by
  induction entered, selections using Request.walk_induction scope.request with
  | nil entered => exact ⟨[],rfl⟩
  | leaf entered field rest restIH =>
    obtain ⟨step,converted⟩ := exists_step_iff.mpr ready.converted
    exact exists_listPaths_cons ⟨_,selectionPaths_leaf_ok_iff.mpr ⟨step,converted,rfl⟩⟩
      (restIH ready.tail)
  | branch entered field body rest bodyIH restIH =>
    obtain ⟨step,converted⟩ := exists_step_iff.mpr ready.converted
    obtain ⟨inner,walked⟩ := bodyIH ready.contents
    exact exists_listPaths_cons
      ⟨_,selectionPaths_branch_ok_iff.mpr ⟨step,inner,converted,walked,rfl⟩⟩ (restIH ready.tail)
  | spread entered name location directives rest bodyIH restIH =>
    have reached := scope.request.reaches_head (.spread name location directives) rest
    have unentered : name ∉ entered := fun present => ready.fresh name present _ _ reached
    obtain ⟨fragment,found⟩ := ready.resolvable.defined name location directives reached
    obtain ⟨written,converted⟩ := exists_directives_iff.mpr ready.converted
    obtain ⟨inner,walked⟩ := bodyIH fragment unentered found (ready.enter found)
    exact exists_listPaths_cons ⟨_,selectionPaths_spread_ok_iff.mpr
      ⟨unentered,fragment,inner,written,found,walked,converted,rfl⟩⟩ (restIH ready.tail)
  | inline entered condition? directives body rest bodyIH restIH =>
    obtain ⟨written,converted⟩ := exists_directives_iff.mpr ready.converted
    obtain ⟨inner,walked⟩ := bodyIH ready.contents
    exact exists_listPaths_cons
      ⟨_,selectionPaths_inline_ok_iff.mpr ⟨inner,written,walked,converted,rfl⟩⟩ (restIH ready.tail)

/-- An operation has paths exactly if every spread it reaches names a fragment, no fragment it
reaches reaches itself, and every value it reaches converts. How often a fragment is spread does
not matter. -/
theorem exists_operationPaths_iff (scope : Scope) :
    (∃ paths, scope.operationPaths = .ok paths) ↔
      scope.Resolvable scope.operation.selections.toList := by
  rw [operationPaths_eq_listPaths]
  constructor
  · intro found
    obtain ⟨paths,ok⟩ := found
    exact resolvable_of_listPaths_ok ok
  · intro resolvable
    have ready : scope.Ready [] scope.operation.selections.toList :=
      ⟨resolvable,fun name absent => by cases absent⟩
    exact ready.exists_listPaths

end Scope

end FlatQuery
