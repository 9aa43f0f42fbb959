import FlatQuery.Paths
import FlatQuery.Proofs.Conversion

/-! How the walk over selections goes. A selection set is walked like the list of its selections,
and what holds of every walk is proved by one induction: it follows a spread into its fragment
as long as the fragment has not been entered. -/

namespace FlatQuery

open Document (Selection SelectionSet)

namespace Document

def Selection.sizes : List Selection → Nat
  | [] => 0
  | selection :: rest => 1 + selection.size + sizes rest

theorem SelectionSet.sizes_toList : (selections : SelectionSet) →
    Selection.sizes selections.toList = selections.size
  | .single _ => rfl
  | .cons selection rest => by simp only [toList,Selection.sizes,size,rest.sizes_toList]

theorem SelectionSet.toList_ne_nil (selections : SelectionSet) : selections.toList ≠ [] := by
  cases selections <;> simp [toList]

end Document

/-- What holds of the empty walk and is kept by each selection holds of every walk. A spread may
use what holds of its fragment, with the fragment entered. -/
@[elab_as_elim]
theorem Request.walk_induction (request : Request) {motive : List Name → List Selection → Prop}
    (nil : ∀ entered, motive entered [])
    (leaf : ∀ entered field rest, motive entered rest → motive entered (.leaf field :: rest))
    (branch : ∀ entered field (body : SelectionSet) rest, motive entered body.toList →
      motive entered rest → motive entered (.branch field body :: rest))
    (spread : ∀ entered name location directives rest,
      (∀ fragment, name ∉ entered → request.fragment? name = some fragment →
        motive (name :: entered) fragment.selections.toList) →
      motive entered rest → motive entered (.spread name location directives :: rest))
    (inline : ∀ entered condition? directives (body : SelectionSet) rest,
      motive entered body.toList → motive entered rest →
      motive entered (.inline condition? directives body :: rest))
    (entered : List Name) (selections : List Selection) : motive entered selections := by
  match selections with
  | [] => exact nil entered
  | .leaf field :: rest =>
    exact leaf entered field rest (walk_induction request nil leaf branch spread inline entered rest)
  | .branch field body :: rest =>
    exact branch entered field body rest
      (walk_induction request nil leaf branch spread inline entered body.toList)
      (walk_induction request nil leaf branch spread inline entered rest)
  | .spread name location directives :: rest =>
    refine spread entered name location directives rest ?_
      (walk_induction request nil leaf branch spread inline entered rest)
    intro fragment fresh found
    have := unentered_cons_add_size_lt fresh found
    exact walk_induction request nil leaf branch spread inline (name :: entered)
      fragment.selections.toList
  | .inline condition? directives body :: rest =>
    exact inline entered condition? directives body rest
      (walk_induction request nil leaf branch spread inline entered body.toList)
      (walk_induction request nil leaf branch spread inline entered rest)
termination_by unentered request.fragments entered + Selection.sizes selections
decreasing_by all_goals simp only [Selection.sizes,SelectionSet.sizes_toList,Selection.size]; omega

namespace Scope

variable (scope : Scope) (entered : List Name)

def listPaths : List Selection → Except Problem (List Path)
  | [] => .ok []
  | selection :: rest => do
    let first ← scope.selectionPaths entered selection
    let more ← listPaths rest
    return first ++ more

theorem paths_eq_listPaths : (selections : SelectionSet) →
    scope.paths entered selections = scope.listPaths entered selections.toList
  | .single selection => by
    rw [paths_single]
    cases computed : scope.selectionPaths entered selection with
    | error problem => simp [SelectionSet.toList,listPaths,computed,bind,Except.bind]
    | ok paths => simp [SelectionSet.toList,listPaths,computed,bind,Except.bind,pure,Except.pure]
  | .cons selection rest => by
    rw [paths_cons,paths_eq_listPaths rest]
    rfl

theorem operationPaths_eq_listPaths :
    scope.operationPaths = scope.listPaths [] scope.operation.selections.toList :=
  scope.paths_eq_listPaths [] scope.operation.selections

variable {scope} {entered} {paths : List Path}

theorem listPaths_cons_ok_iff {selection : Selection} {rest : List Selection} :
    scope.listPaths entered (selection :: rest) = .ok paths ↔
      ∃ first more, scope.selectionPaths entered selection = .ok first ∧
        scope.listPaths entered rest = .ok more ∧ paths = first ++ more := by
  simp only [listPaths,bind_eq_ok_iff,pure_eq_ok_iff]
  grind

theorem selectionPaths_leaf_ok_iff {field : Document.Field} :
    scope.selectionPaths entered (.leaf field) = .ok paths ↔
      ∃ step, scope.step field = .ok step ∧ paths = [[step]] := by
  simp only [selectionPaths_leaf,bind_eq_ok_iff,pure_eq_ok_iff]

theorem selectionPaths_branch_ok_iff {field : Document.Field} {body : SelectionSet} :
    scope.selectionPaths entered (.branch field body) = .ok paths ↔
      ∃ step inner, scope.step field = .ok step ∧ scope.listPaths entered body.toList = .ok inner ∧
        paths = inner.map (step :: ·) := by
  simp only [selectionPaths_branch,paths_eq_listPaths,bind_eq_ok_iff,pure_eq_ok_iff]
  grind

theorem selectionPaths_inline_ok_iff {condition? : Option Name}
    {directives : List Document.Directive} {body : SelectionSet} :
    scope.selectionPaths entered (.inline condition? directives body) = .ok paths ↔
      ∃ inner written, scope.listPaths entered body.toList = .ok inner ∧
        scope.directives directives = .ok written ∧
        paths = inner.map (Path.prepend (Directive.guards condition? ++ written)) := by
  simp only [selectionPaths_inline,paths_eq_listPaths,bind_eq_ok_iff,pure_eq_ok_iff]
  grind

theorem selectionPaths_spread_ok_iff {name : Name} {location : Location}
    {directives : List Document.Directive} :
    scope.selectionPaths entered (.spread name location directives) = .ok paths ↔
      name ∉ entered ∧ ∃ fragment inner written, scope.request.fragment? name = some fragment ∧
        scope.listPaths (name :: entered) fragment.selections.toList = .ok inner ∧
        scope.directives directives = .ok written ∧
        paths = inner.map (Path.prepend (Directive.guards (some fragment.condition) ++ written)) := by
  by_cases inside : name ∈ entered
  · simp [selectionPaths_spread_entered,inside]
  · cases found : scope.request.fragment? name with
    | none => simp [selectionPaths_spread_unknown,inside,found]
    | some fragment =>
      simp only [selectionPaths_spread_known scope location directives inside found,
        paths_eq_listPaths,bind_eq_ok_iff,pure_eq_ok_iff,Directive.guards]
      grind

end Scope

end FlatQuery
