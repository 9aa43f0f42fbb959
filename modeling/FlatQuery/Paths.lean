import FlatQuery.Scope

/-! The paths of an operation: one from the root to each leaf of its selections, with every
fragment put in place. Fragments add no step; a guard on the first step below a fragment
checks its type condition. -/

namespace FlatQuery

/-- Includes a field only where the object is of a type or implements an interface of that name. -/
def Directive.typeGuard (type : String) : Directive :=
  ⟨"include", [("if", .call (.applied "or" [("values", .list
    [.call (.applied "isType" [("type", .string type)]),
     .call (.applied "implements" [("interface", .string type)])])]))]⟩

def Directive.guards (condition? : Option Name) : List Directive :=
  condition?.toList.map fun type => typeGuard type.text

def Path.prepend (directives : List Directive) : Path → Path
  | [] => []
  | root :: rest => root.prepend directives :: rest

def Path.restrain (type : String) (paths : List Path) : List Path :=
  paths.map (Path.prepend [.typeGuard type])

namespace Request

def unentered (fragments : List Document.Fragment) (entered : List Name) : Nat :=
  match fragments with
  | [] => 0
  | fragment :: rest =>
    (if fragment.name ∈ entered then 0 else 1 + fragment.selections.size) + unentered rest entered

private theorem unentered_cons_le (fragments : List Document.Fragment) (entered : List Name)
    (name : Name) : unentered fragments (name :: entered) ≤ unentered fragments entered := by
  induction fragments with
  | nil => simp [unentered]
  | cons fragment rest ih =>
    by_cases old : fragment.name ∈ entered
    · simp only [unentered,List.mem_cons,old,or_true,ite_true]
      omega
    · simp only [unentered,List.mem_cons,old,or_false,ite_false]
      split <;> omega

private theorem unentered_cons_add_size_lt_of_mem {fragments : List Document.Fragment}
    {entered : List Name}
    {fragment : Document.Fragment} (inside : fragment ∈ fragments) (fresh : fragment.name ∉ entered) :
    unentered fragments (fragment.name :: entered) + fragment.selections.size <
      unentered fragments entered := by
  induction fragments with
  | nil => simp at inside
  | cons first rest ih =>
    rcases List.mem_cons.mp inside with rfl | later
    · have := unentered_cons_le rest entered fragment.name
      simp only [unentered,List.mem_cons,true_or,ite_true,fresh,ite_false]
      omega
    · have := ih later
      by_cases old : first.name ∈ entered
      · simp only [unentered,List.mem_cons,old,or_true,ite_true]
        omega
      · simp only [unentered,List.mem_cons,old,or_false,ite_false]
        split <;> omega

theorem fragment?_mem {request : Request} {name : Name} {fragment : Document.Fragment}
    (found : request.fragment? name = some fragment) : fragment ∈ request.fragments := by
  simpa using List.mem_of_find?_eq_some found

theorem fragment?_name {request : Request} {name : Name} {fragment : Document.Fragment}
    (found : request.fragment? name = some fragment) : fragment.name = name := by
  simpa using List.find?_some found

theorem unentered_cons_add_size_lt {request : Request} {name : Name} {entered : List Name}
    {fragment : Document.Fragment} (fresh : name ∉ entered)
    (found : request.fragment? name = some fragment) :
    unentered request.fragments (name :: entered) + fragment.selections.size <
      unentered request.fragments entered := by
  have same := fragment?_name found
  subst same
  exact unentered_cons_add_size_lt_of_mem (fragment?_mem found) fresh

end Request

namespace Scope

mutual

/-- The paths of one selection. `entered` holds the fragments that the selection stands in. -/
def selectionPaths (scope : Scope) (entered : List Name) (selection : Document.Selection) :
    Except Problem (List Path) :=
  match selection with
  | .leaf field => do
    let step ← scope.step field
    return [[step]]
  | .branch field body => do
    let step ← scope.step field
    let paths ← scope.paths entered body
    return paths.map (step :: ·)
  | .spread name location directives =>
    if fresh : name ∈ entered then .error (.recursiveFragment name.text location)
    else
      match found : scope.request.fragment? name with
      | none => .error (.unknownFragment name.text location)
      | some fragment => do
        have := Request.unentered_cons_add_size_lt fresh found
        let paths ← scope.paths (name :: entered) fragment.selections
        let directives ← scope.directives directives
        return paths.map (Path.prepend (.typeGuard fragment.condition.text :: directives))
  | .inline condition? directives body => do
    let paths ← scope.paths entered body
    let directives ← scope.directives directives
    return paths.map (Path.prepend (Directive.guards condition? ++ directives))
termination_by Request.unentered scope.request.fragments entered + selection.size
decreasing_by all_goals simp only [Document.Selection.size]; omega

def paths (scope : Scope) (entered : List Name) (selections : Document.SelectionSet) :
    Except Problem (List Path) :=
  match selections with
  | .single selection => scope.selectionPaths entered selection
  | .cons selection rest => do
    let first ← scope.selectionPaths entered selection
    let more ← scope.paths entered rest
    return first ++ more
termination_by Request.unentered scope.request.fragments entered + selections.size
decreasing_by all_goals simp only [Document.SelectionSet.size]; omega

end

section

variable (scope : Scope) (entered : List Name)

theorem selectionPaths_leaf (field : Document.Field) :
    scope.selectionPaths entered (.leaf field) = (do
      let step ← scope.step field
      return [[step]]) := by
  rw [selectionPaths]

theorem selectionPaths_branch (field : Document.Field) (body : Document.SelectionSet) :
    scope.selectionPaths entered (.branch field body) = (do
      let step ← scope.step field
      let paths ← scope.paths entered body
      return paths.map (step :: ·)) := by
  rw [selectionPaths]

theorem selectionPaths_inline (condition? : Option Name) (directives : List Document.Directive)
    (body : Document.SelectionSet) :
    scope.selectionPaths entered (.inline condition? directives body) = (do
      let paths ← scope.paths entered body
      let directives ← scope.directives directives
      return paths.map (Path.prepend (Directive.guards condition? ++ directives))) := by
  rw [selectionPaths]

variable {entered} {name : Name} (location : Location) (directives : List Document.Directive)

theorem selectionPaths_spread_entered (inside : name ∈ entered) :
    scope.selectionPaths entered (.spread name location directives) =
      .error (.recursiveFragment name.text location) := by
  rw [selectionPaths]
  simp [inside]

theorem selectionPaths_spread_unknown (fresh : name ∉ entered)
    (missing : scope.request.fragment? name = none) :
    scope.selectionPaths entered (.spread name location directives) =
      .error (.unknownFragment name.text location) := by
  rw [selectionPaths]
  simp only [fresh,dite_false]
  split
  · rfl
  · simp_all

theorem selectionPaths_spread_known {fragment : Document.Fragment} (fresh : name ∉ entered)
    (found : scope.request.fragment? name = some fragment) :
    scope.selectionPaths entered (.spread name location directives) = (do
      let paths ← scope.paths (name :: entered) fragment.selections
      let directives ← scope.directives directives
      return paths.map (Path.prepend (.typeGuard fragment.condition.text :: directives))) := by
  rw [selectionPaths]
  simp only [fresh,dite_false]
  split
  · simp_all
  · rename_i other same
    cases found.symm.trans same
    rfl

end

theorem paths_single (scope : Scope) (entered : List Name) (selection : Document.Selection) :
    scope.paths entered (.single selection) = scope.selectionPaths entered selection := by
  rw [paths]

theorem paths_cons (scope : Scope) (entered : List Name) (selection : Document.Selection)
    (rest : Document.SelectionSet) :
    scope.paths entered (.cons selection rest) = (do
      let first ← scope.selectionPaths entered selection
      let more ← scope.paths entered rest
      return first ++ more) := by
  rw [paths]

def operationPaths (scope : Scope) : Except Problem (List Path) :=
  scope.paths [] scope.operation.selections

end Scope

end FlatQuery
