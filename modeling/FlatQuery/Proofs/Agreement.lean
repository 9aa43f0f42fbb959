import FlatQuery.Proofs.Batches
import FlatQuery.Proofs.Reachability

/-! When two walks come out alike. A walk looks at nothing but the fragments it enters and the terms
of the values it reaches, so two scopes that agree on these have the same paths or the same problem,
whatever else they hold. -/

namespace FlatQuery

open Document (Selection SelectionSet)

namespace Document.Value

mutual

def references : Value → List Name
  | .reference name => [name]
  | .list items => itemReferences items
  | .object members => memberReferences members
  | .null | .bool _ | .int _ | .float _ | .string _ | .enum _ => []

def itemReferences : List Value → List Name
  | [] => []
  | item :: items => item.references ++ itemReferences items

def memberReferences : List (Name × Value) → List Name
  | [] => []
  | (_,value) :: members => value.references ++ memberReferences members

end

mutual

def literals : Value → List String
  | .string text => [text]
  | .list items => itemLiterals items
  | .object members => memberLiterals members
  | .reference _ | .null | .bool _ | .int _ | .float _ | .enum _ => []

def itemLiterals : List Value → List String
  | [] => []
  | item :: items => item.literals ++ itemLiterals items

def memberLiterals : List (Name × Value) → List String
  | [] => []
  | (_,value) :: members => value.literals ++ memberLiterals members

end

end Document.Value

namespace Scope

variable {first second : Scope} {location : Location}

mutual

theorem term_congr : (value : Document.Value) →
    (∀ text ∈ value.literals, second.stringTerm text = first.stringTerm text) →
    (∀ name ∈ value.references,
      second.variableTerm name location = first.variableTerm name location) →
    second.term location value = first.term location value
  | .reference name, _, same => same name (by simp [Document.Value.references])
  | .null, _, _ => rfl
  | .bool _, _, _ => rfl
  | .int _, _, _ => rfl
  | .float _, _, _ => rfl
  | .string text, written, _ =>
    congrArg Except.ok (written text (by simp [Document.Value.literals]))
  | .enum _, _, _ => rfl
  | .list items, written, same => congrArg (Except.map Term.list) (terms_congr items written same)
  | .object members, written, same =>
    congrArg (Except.map Term.object) (members_congr members written same)

private theorem terms_congr : (items : List Document.Value) →
    (∀ text ∈ Document.Value.itemLiterals items, second.stringTerm text = first.stringTerm text) →
    (∀ name ∈ Document.Value.itemReferences items,
      second.variableTerm name location = first.variableTerm name location) →
    second.terms location items = first.terms location items
  | [], _, _ => rfl
  | item :: items, written, same => by
    rw [Document.Value.itemLiterals,List.forall_mem_append] at written
    rw [Document.Value.itemReferences,List.forall_mem_append] at same
    rw [terms,terms,term_congr item written.1 same.1,terms_congr items written.2 same.2]

private theorem members_congr : (members : Document.Arguments) →
    (∀ text ∈ Document.Value.memberLiterals members, second.stringTerm text = first.stringTerm text) →
    (∀ name ∈ Document.Value.memberReferences members,
      second.variableTerm name location = first.variableTerm name location) →
    second.arguments location members = first.arguments location members
  | [], _, _ => rfl
  | (key,value) :: members, written, same => by
    rw [Document.Value.memberLiterals,List.forall_mem_append] at written
    rw [Document.Value.memberReferences,List.forall_mem_append] at same
    rw [arguments,arguments,term_congr value written.1 same.1,members_congr members written.2 same.2]

end

private theorem arguments_congr {members : Document.Arguments}
    (same : ∀ member ∈ members, second.term location member.2 = first.term location member.2) :
    second.arguments location members = first.arguments location members := by
  induction members with
  | nil => rfl
  | cons member members ih =>
    rw [List.forall_mem_cons] at same
    rw [arguments,arguments,same.1,ih same.2]

theorem directives_congr {written : List Document.Directive}
    (same : ∀ value ∈ written.flatMap Document.Directive.values,
      second.term value.1 value.2 = first.term value.1 value.2) :
    second.directives written = first.directives written := by
  induction written with
  | nil => rfl
  | cons directive rest ih =>
    rw [List.flatMap_cons,List.forall_mem_append,Document.Directive.values,List.forall_mem_map] at same
    have head : second.directive directive = first.directive directive := by
      rw [Scope.directive,Scope.directive,arguments_congr same.1]
    rw [directives,directives,head,ih same.2]

private theorem step_congr {field : Document.Field}
    (same : ∀ value ∈ field.values, second.term value.1 value.2 = first.term value.1 value.2) :
    second.step field = first.step field := by
  rw [Document.Field.values,List.forall_mem_append,List.forall_mem_map] at same
  rw [step,step,arguments_congr same.1,directives_congr same.2]

/-- Two scopes have the same fragments and the same terms for all that the first one reaches. -/
structure Agrees (first second : Scope) (selections : List Selection) : Prop where
  fragments : ∀ name location directives,
    first.request.Reaches selections (.spread name location directives) →
      second.request.fragment? name = first.request.fragment? name
  values : ∀ selection, first.request.Reaches selections selection →
    ∀ value ∈ selection.values, second.term value.1 value.2 = first.term value.1 value.2

namespace Agrees

variable {entered : List Name} {selection : Selection} {rest : List Selection}

theorem mono {outer inner : List Selection} (agrees : first.Agrees second outer)
    (within : ∀ selection ∈ inner, first.request.Reaches outer selection) :
    first.Agrees second inner where
  fragments name location directives reached :=
    agrees.fragments name location directives (reached.trans within)
  values selection reached := agrees.values selection (reached.trans within)

theorem tail (agrees : first.Agrees second (selection :: rest)) : first.Agrees second rest :=
  agrees.mono (first.request.reaches_of_mem_tail selection rest)

theorem contents (agrees : first.Agrees second (selection :: rest)) :
    first.Agrees second (first.request.contents selection) :=
  agrees.mono (first.request.reaches_of_mem_contents selection rest)

theorem head (agrees : first.Agrees second (selection :: rest)) :
    ∀ value ∈ selection.values, second.term value.1 value.2 = first.term value.1 value.2 :=
  agrees.values selection (first.request.reaches_head selection rest)

theorem enter {name : Name} {directives : List Document.Directive} {fragment : Document.Fragment}
    (agrees : first.Agrees second (.spread name location directives :: rest))
    (found : first.request.fragment? name = some fragment) :
    first.Agrees second fragment.selections.toList := by
  have inner := agrees.contents
  rwa [Request.contents,found,Option.map_some,Option.getD_some] at inner

theorem listPaths_cons_eq
    (head : second.selectionPaths entered selection = first.selectionPaths entered selection)
    (tail : second.listPaths entered rest = first.listPaths entered rest) :
    second.listPaths entered (selection :: rest) = first.listPaths entered (selection :: rest) := by
  rw [listPaths,listPaths,head,tail]

/-- The walks go through the same fragments side by side, so they also fail at the same place. -/
theorem listPaths_eq {selections : List Selection} (agrees : first.Agrees second selections) :
    second.listPaths entered selections = first.listPaths entered selections := by
  induction entered, selections using Request.walk_induction first.request with
  | nil entered => rfl
  | leaf entered field rest restIH =>
    apply listPaths_cons_eq ?_ (restIH agrees.tail)
    rw [selectionPaths_leaf,selectionPaths_leaf,step_congr agrees.head]
  | branch entered field body rest bodyIH restIH =>
    apply listPaths_cons_eq ?_ (restIH agrees.tail)
    have below : second.listPaths entered body.toList = first.listPaths entered body.toList :=
      bodyIH agrees.contents
    rw [selectionPaths_branch,selectionPaths_branch,paths_eq_listPaths,paths_eq_listPaths,
      step_congr agrees.head,below]
  | spread entered name location directives rest bodyIH restIH =>
    apply listPaths_cons_eq ?_ (restIH agrees.tail)
    have same : second.request.fragment? name = first.request.fragment? name :=
      agrees.fragments name location directives (first.request.reaches_head _ rest)
    have written : second.directives directives = first.directives directives :=
      directives_congr agrees.head
    by_cases inside : name ∈ entered
    · rw [selectionPaths_spread_entered second location directives inside,
        selectionPaths_spread_entered first location directives inside]
    · cases found : first.request.fragment? name with
      | none =>
        rw [selectionPaths_spread_unknown second location directives inside (same.trans found),
          selectionPaths_spread_unknown first location directives inside found]
      | some fragment =>
        have within := bodyIH fragment inside found (agrees.enter found)
        rw [selectionPaths_spread_known second location directives inside (same.trans found),
          selectionPaths_spread_known first location directives inside found,
          paths_eq_listPaths,paths_eq_listPaths,within,written]
  | inline entered condition? directives body rest bodyIH restIH =>
    apply listPaths_cons_eq ?_ (restIH agrees.tail)
    have below : second.listPaths entered body.toList = first.listPaths entered body.toList :=
      bodyIH agrees.contents
    rw [selectionPaths_inline,selectionPaths_inline,paths_eq_listPaths,paths_eq_listPaths,below,
      directives_congr agrees.head]

end Agrees

theorem operationPaths_congr (operation : second.operation = first.operation)
    (agrees : first.Agrees second first.operation.selections.toList) :
    second.operationPaths = first.operationPaths := by
  rw [operationPaths_eq_listPaths,operationPaths_eq_listPaths,operation,agrees.listPaths_eq]

theorem agrees_of_same_fragments (settings : Settings) (first second : Request)
    (operation : Document.Operation) (values : second.values = first.values)
    (same : ∀ name location directives,
      first.Reaches operation.selections.toList (.spread name location directives) →
        second.fragment? name = first.fragment? name) :
    Agrees ⟨settings,first,operation⟩ ⟨settings,second,operation⟩ operation.selections.toList where
  fragments := same
  values := by
    intro selection reached value inside
    refine term_congr value.2 (fun _ _ => rfl) ?_
    intro name present
    simp only [variableTerm,Request.variableTerm,values]

end Scope

namespace Batch

theorem extend_congr {before after : Settings} {first second : Request} {batch : Batch}
    {operations : List Document.Operation}
    (same : ∀ operation ∈ operations, Scope.operationPaths ⟨after,second,operation⟩ =
      Scope.operationPaths ⟨before,first,operation⟩) :
    extend after second batch operations = extend before first batch operations := by
  induction operations generalizing batch with
  | nil => rfl
  | cons operation rest ih =>
    rw [List.forall_mem_cons] at same
    rw [extend,extend,same.1]
    apply bind_congr
    intro paths
    exact ih same.2

end Batch

end FlatQuery
