import FlatQuery.Batch
import FlatQuery.Proofs.Nesting
import FlatQuery.Proofs.Outline

/-! Where the names and keys in the steps of a batch come from. All of them are names of the
document or of the conversion itself, except for the keys of objects that are submitted as values
of variables. -/

namespace FlatQuery

open Text (Balanced)

namespace Json

mutual

/-- The keys of objects in a value at any depth. -/
def keys : Json → List String
  | .array items => itemKeys items
  | .object members => memberKeys members
  | .null | .bool _ | .integer _ | .real _ | .string _ => []

def itemKeys : List Json → List String
  | [] => []
  | item :: items => item.keys ++ itemKeys items

def memberKeys : List (String × Json) → List String
  | [] => []
  | (key,value) :: members => key :: (value.keys ++ memberKeys members)

end

/-- The keys of objects among the values of variables are balanced. -/
def KeysBalanced (values : List (String × Json)) : Prop :=
  ∀ member ∈ values, ∀ key ∈ member.2.keys, Balanced key.toList

private theorem exists_mem_of_get? {key : String} {values : List (String × Json)} {value : Json}
    (found : get? key values = some value) : ∃ member ∈ values, member.2 = value := by
  obtain ⟨member,present,same⟩ := Option.map_eq_some_iff.mp found
  exact ⟨member,List.mem_of_find?_eq_some present,same⟩

end Json

namespace Term

private theorem tame_ofInteger (value : Int) : (ofInteger value).Tame := by
  unfold ofInteger
  split <;> trivial

mutual

theorem tame_ofJson : (json : Json) → (∀ key ∈ json.keys, Balanced key.toList) → (ofJson json).Tame
  | .null, _ => trivial
  | .bool _, _ => trivial
  | .integer value, _ => tame_ofInteger value
  | .real _, _ => trivial
  | .string _, _ => trivial
  | .array items, balanced => tame_ofItems items balanced
  | .object members, balanced => tame_ofMembers members balanced

private theorem tame_ofItems : (items : List Json) →
    (∀ key ∈ Json.itemKeys items, Balanced key.toList) → ListTame (ofItems items)
  | [], _ => trivial
  | item :: items, balanced => by
    rw [Json.itemKeys,List.forall_mem_append] at balanced
    exact ⟨tame_ofJson item balanced.1,tame_ofItems items balanced.2⟩

private theorem tame_ofMembers : (members : List (String × Json)) →
    (∀ key ∈ Json.memberKeys members, Balanced key.toList) → MembersTame (ofMembers members)
  | [], _ => trivial
  | (key,value) :: members, balanced => by
    rw [Json.memberKeys,List.forall_mem_cons,List.forall_mem_append] at balanced
    exact ⟨balanced.1,tame_ofJson value balanced.2.1,tame_ofMembers members balanced.2.2⟩

end

end Term

namespace Document.Value

mutual

theorem balanced_keys_toJson : (value : Value) → ∀ key ∈ value.toJson.keys, Balanced key.toList
  | .reference _ => by simp [toJson,Json.keys]
  | .null => by simp [toJson,Json.keys]
  | .bool _ => by simp [toJson,Json.keys]
  | .int _ => by simp [toJson,Json.keys]
  | .float value => by
    rw [toJson]
    split <;> simp [Json.keys]
  | .string _ => by simp [toJson,Json.keys]
  | .enum _ => by simp [toJson,Json.keys]
  | .list items => balanced_keys_itemsToJson items
  | .object members => balanced_keys_membersToJson members

private theorem balanced_keys_itemsToJson : (items : List Value) →
    ∀ key ∈ Json.itemKeys (itemsToJson items), Balanced key.toList
  | [] => by simp [itemsToJson,Json.itemKeys]
  | item :: items => by
    rw [itemsToJson,Json.itemKeys,List.forall_mem_append]
    exact ⟨balanced_keys_toJson item,balanced_keys_itemsToJson items⟩

private theorem balanced_keys_membersToJson : (members : List (Name × Value)) →
    ∀ key ∈ Json.memberKeys (membersToJson members), Balanced key.toList
  | [] => by simp [membersToJson,Json.memberKeys]
  | (key,value) :: members => by
    rw [membersToJson,Json.memberKeys,List.forall_mem_cons,List.forall_mem_append]
    exact ⟨Text.balanced_of_isName key.valid,balanced_keys_toJson value,
      balanced_keys_membersToJson members⟩

end

end Document.Value

private theorem Step.tame_plain (name : Name) : (Step.plain name.text).Tame :=
  ⟨name.valid,trivial,by simp,trivial⟩

private theorem Step.tame_applied {name : String} {arguments : Arguments}
    (named : Text.isName name.toList = true) (members : Term.MembersTame arguments) :
    (Step.applied name arguments).Tame :=
  ⟨named,members,by simp,trivial⟩

private theorem Embedding.tame_term (literal : String) : (term literal).Tame := by
  simp only [term]
  split
  · trivial
  · have calls (names : List Name) :
        Term.ListTame (names.map fun name => .call (.plain name.text)) := by
      rw [Term.listTame_iff,List.forall_mem_map]
      exact fun name _ => Step.tame_plain name
    exact Step.tame_applied (by decide) ⟨Text.balanced_of_isName (by decide),trivial,
      Text.balanced_of_isName (by decide),calls _,trivial⟩

private theorem Directive.tame_typeGuard (type : String) : (typeGuard type).Tame := by
  have member (name key : String) (named : Text.isName name.toList = true)
      (keyed : Text.isName key.toList = true) (term : Term) (tame : term.Tame) :
      (Term.call (.applied name [(key,term)])).Tame :=
    Step.tame_applied named ⟨Text.balanced_of_isName keyed,tame,trivial⟩
  refine ⟨by decide,Text.balanced_of_isName (by decide),?_,trivial⟩
  refine member "or" "values" (by decide) (by decide) _ ⟨?_,?_,trivial⟩
  · exact member "isType" "type" (by decide) (by decide) _ trivial
  · exact member "implements" "interface" (by decide) (by decide) _ trivial

theorem Directive.listTame_append {first second : List Directive} (before : ListTame first)
    (after : ListTame second) : ListTame (first ++ second) := by
  rw [listTame_iff] at before after ⊢
  exact List.forall_mem_append.mpr ⟨before,after⟩

theorem Step.Tame.prepend {step : Step} {directives : List Directive}
    (before : Directive.ListTame directives) (tame : step.Tame) :
    (step.prepend directives).Tame := by
  obtain ⟨named,members,other,own⟩ := Step.tame_iff.mp tame
  exact ⟨named,members,other,Directive.listTame_append before own⟩

private theorem Directive.listTame_guards (condition? : Option Name) :
    ListTame (guards condition?) := by
  cases condition? with
  | none => trivial
  | some condition => exact ⟨tame_typeGuard condition.text,trivial⟩

namespace Scope

variable {scope : Scope} {location : Location}

private theorem tame_of_variableTerm_ok (balanced : Json.KeysBalanced scope.request.values)
    {name : Name} {term : Term} (ok : scope.variableTerm name location = .ok term) : term.Tame := by
  by_cases deferred : (scope.settings.expressionVariables && isExpressionName name.text) = true
  · rw [variableTerm_of_deferred deferred] at ok
    cases ok
    exact name.valid
  · rw [variableTerm_of_immediate deferred] at ok
    cases Request.resolves_of_variableTerm_eq ok with
    | submitted declaration value found given =>
      obtain ⟨member,inside,rfl⟩ := Json.exists_mem_of_get? given
      exact Term.tame_ofJson member.2 (balanced member inside)
    | byDefault declaration value =>
      exact Term.tame_ofJson value.toJson value.balanced_keys_toJson
    | null => trivial

private theorem tame_stringTerm (scope : Scope) (literal : String) :
    (scope.stringTerm literal).Tame := by
  unfold stringTerm
  split
  · exact Embedding.tame_term literal
  · trivial

mutual

theorem tame_of_term_ok (balanced : Json.KeysBalanced scope.request.values) :
    (value : Document.Value) → {term : Term} → scope.term location value = .ok term → term.Tame
  | .reference name, _, ok => tame_of_variableTerm_ok balanced ok
  | .null, _, rfl => trivial
  | .bool _, _, rfl => trivial
  | .int _, _, rfl => trivial
  | .float _, _, rfl => trivial
  | .string value, _, rfl => scope.tame_stringTerm value
  | .enum name, _, rfl => name.valid
  | .list items, _, ok => by
    obtain ⟨terms,computed,rfl⟩ := map_eq_ok_iff.mp ok
    exact tame_of_terms_ok balanced items computed
  | .object members, _, ok => by
    obtain ⟨arguments,computed,rfl⟩ := map_eq_ok_iff.mp ok
    exact tame_of_arguments_ok balanced members computed

private theorem tame_of_terms_ok (balanced : Json.KeysBalanced scope.request.values) :
    (items : List Document.Value) → {terms : List Term} → scope.terms location items = .ok terms →
      Term.ListTame terms
  | [], _, rfl => trivial
  | item :: items, _, ok => by
    obtain ⟨first,rest,head,tail,rfl⟩ := terms_cons_ok_iff.mp ok
    exact ⟨tame_of_term_ok balanced item head,tame_of_terms_ok balanced items tail⟩

theorem tame_of_arguments_ok (balanced : Json.KeysBalanced scope.request.values) :
    (members : Document.Arguments) → {arguments : Arguments} →
      scope.arguments location members = .ok arguments → Term.MembersTame arguments
  | [], _, rfl => trivial
  | (key,value) :: members, _, ok => by
    obtain ⟨first,rest,head,tail,rfl⟩ := arguments_cons_ok_iff.mp ok
    exact ⟨Text.balanced_of_isName key.valid,tame_of_term_ok balanced value head,
      tame_of_arguments_ok balanced members tail⟩

end

private theorem listTame_of_directives_ok (balanced : Json.KeysBalanced scope.request.values)
    {written : List Document.Directive} {directives : List Directive}
    (ok : scope.directives written = .ok directives) : Directive.ListTame directives := by
  rw [Directive.listTame_iff]
  intro directive inside
  obtain ⟨source,_,found⟩ := exists_directive_of_mem ok inside
  obtain ⟨named,computed⟩ := directive_ok_iff.mp found
  rw [Directive.tame_iff,named]
  exact ⟨source.name.valid,tame_of_arguments_ok balanced source.arguments computed⟩

theorem Converts.tame (balanced : Json.KeysBalanced scope.request.values) {field : Document.Field}
    {step : Step} (converts : scope.Converts field step) : step.Tame := by
  rw [Step.tame_iff,converts.name,converts.alias?]
  refine ⟨field.name.valid,tame_of_arguments_ok balanced field.arguments converts.arguments,?_,
    listTame_of_directives_ok balanced converts.directives⟩
  intro other present
  obtain ⟨name,_,rfl⟩ := Option.map_eq_some_iff.mp present
  exact name.valid

end Scope

private theorem Step.carried_tame : Outline.Carried Step.Tame Directive.ListTame where
  nil := trivial
  cross _ condition? _ marks own := Directive.listTame_append
    (Directive.listTame_append marks (Directive.listTame_guards condition?)) own
  prepend _ _ marks own := own.prepend marks

namespace Scope

variable {scope : Scope} {paths : List Path}

theorem full_of_operationPaths_ok (ok : scope.operationPaths = .ok paths) :
    paths ≠ [] ∧ ∀ path ∈ paths, path ≠ [] := by
  rw [operationPaths_eq_listPaths] at ok
  obtain ⟨outline,outlined,rfl⟩ := exists_outline scope [] _ paths ok
  refine ⟨?_,outline.ne_nil_of_mem_pathsBelow [] []⟩
  rw [← List.length_pos_iff,outline.length_pathsBelow]
  exact outlined.leafCount_pos scope.operation.selections.toList_ne_nil

theorem tame_of_operationPaths_ok (balanced : Json.KeysBalanced scope.request.values)
    (ok : scope.operationPaths = .ok paths) : ∀ path ∈ paths, ∀ step ∈ path, step.Tame :=
  forall_step_of_operationPaths_ok Step.carried_tame (fun _ _ converts => converts.tame balanced)
    (fun _ _ converted => listTame_of_directives_ok balanced converted) ok

end Scope

end FlatQuery
