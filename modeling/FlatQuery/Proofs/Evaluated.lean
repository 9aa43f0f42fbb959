import FlatQuery.Proofs.Agreement

/-! Terms that are evaluated later: expressions and calls. Terms of JSON hold none at any depth, so
submitted values and defaults do not either. In the term of a value that is written in a document an
expression stands for a variable of that value, and a call stands in the term of a literal of it. -/

namespace FlatQuery

namespace Term

def parts : Term → List Term
  | .list items => items
  | .object members => members.map Prod.snd
  | .call step =>
    step.arguments.map Prod.snd ++ step.directives.flatMap (·.arguments.map Prod.snd)
  | .null | .bool _ | .int _ | .float _ | .string _ | .enum _ | .expression _ => []

/-- The way from a term down to a term at some depth in it, with all the terms on that way. -/
inductive Descends : Term → List Term → Term → Prop
  | here (term : Term) : Descends term [term] term
  | down (outer part inner : Term) (way : List Term) (inside : part ∈ outer.parts)
      (further : Descends part way inner) : Descends outer (outer :: way) inner

def Throughout (holds : Term → Prop) (term : Term) : Prop :=
  ∀ way inner, term.Descends way inner → holds inner

theorem throughout_of_parts {holds : Term → Prop} {term : Term} (here : holds term)
    (below : ∀ part ∈ term.parts, part.Throughout holds) : term.Throughout holds := by
  intro way inner descends
  cases descends with
  | here => exact here
  | down _ part _ way inside further => exact below part inside way inner further

def isEvaluated : Term → Bool
  | .expression _ | .call _ => true
  | .null | .bool _ | .int _ | .float _ | .string _ | .enum _ | .list _ | .object _ => false

/-- Nothing in a term is evaluated later. -/
def Inert (term : Term) : Prop := term.Throughout (·.isEvaluated = false)

theorem inert_of_parts_eq_nil {term : Term} (settled : term.isEvaluated = false)
    (alone : term.parts = []) : term.Inert := by
  refine throughout_of_parts settled ?_
  rw [alone]
  simp

private theorem inert_ofInteger (value : Int) : (ofInteger value).Inert := by
  unfold ofInteger
  split
  · exact inert_of_parts_eq_nil rfl rfl
  · exact inert_of_parts_eq_nil rfl rfl

mutual

theorem inert_ofJson : (json : Json) → (ofJson json).Inert
  | .null => inert_of_parts_eq_nil rfl rfl
  | .bool _ => inert_of_parts_eq_nil rfl rfl
  | .integer value => inert_ofInteger value
  | .real _ => inert_of_parts_eq_nil rfl rfl
  | .string _ => inert_of_parts_eq_nil rfl rfl
  | .array items => throughout_of_parts rfl (inert_ofItems items)
  | .object members => throughout_of_parts rfl (inert_ofMembers members)

private theorem inert_ofItems : (items : List Json) → ∀ part ∈ ofItems items, part.Inert
  | [] => by simp [ofItems]
  | item :: items => List.forall_mem_cons.mpr ⟨inert_ofJson item,inert_ofItems items⟩

private theorem inert_ofMembers : (members : List (String × Json)) →
    ∀ part ∈ (ofMembers members).map Prod.snd, part.Inert
  | [] => by simp [ofMembers]
  | (_,value) :: members => List.forall_mem_cons.mpr ⟨inert_ofJson value,inert_ofMembers members⟩

end

def WithoutExpressions (term : Term) : Prop :=
  term.Throughout fun inner => ∀ name, inner ≠ .expression name

theorem withoutExpressions_string (text : String) : (string text).WithoutExpressions :=
  throughout_of_parts (by simp) (by simp [parts])

private theorem withoutExpressions_list {items : List Term}
    (each : ∀ item ∈ items, item.WithoutExpressions) : (list items).WithoutExpressions :=
  throughout_of_parts (by simp) each

theorem withoutExpressions_applied (name : String) {arguments : Arguments}
    (each : ∀ member ∈ arguments, member.2.WithoutExpressions) :
    (call (.applied name arguments)).WithoutExpressions := by
  refine throughout_of_parts (by simp) ?_
  simp only [parts,Step.applied,List.flatMap_nil,List.append_nil,List.forall_mem_map]
  exact each

end Term

private theorem Embedding.withoutExpressions_term (text : String) :
    (term text).WithoutExpressions := by
  simp only [term]
  split
  · exact Term.withoutExpressions_string text
  · have calls (names : List Name) :
        (Term.list (names.map fun name => .call (.plain name.text))).WithoutExpressions := by
      apply Term.withoutExpressions_list
      rw [List.forall_mem_map]
      intro name _
      exact Term.withoutExpressions_applied name.text (by simp)
    refine Term.withoutExpressions_applied "sprintf" ?_
    simp only [List.forall_mem_cons]
    exact ⟨Term.withoutExpressions_string _,calls _,by simp⟩

theorem Directive.withoutExpressions_typeGuard (type : String) :
    ∀ member ∈ (typeGuard type).arguments, member.2.WithoutExpressions := by
  have check (name key : String) :
      (Term.call (.applied name [(key,.string type)])).WithoutExpressions := by
    apply Term.withoutExpressions_applied
    simpa using Term.withoutExpressions_string type
  rw [typeGuard,List.forall_mem_singleton]
  apply Term.withoutExpressions_applied
  rw [List.forall_mem_singleton]
  apply Term.withoutExpressions_list
  simp only [List.forall_mem_cons]
  exact ⟨check _ _,check _ _,by simp⟩

namespace Term

variable (deferred embedded : String → Prop)

/-- A term whose expressions and literals with calls are accounted for. -/
inductive Traced : Term → Prop
  | inert (term : Term) (quiet : term.Inert) : Traced term
  | expression (name : String) (accounted : deferred name) : Traced (.expression name)
  | literal (text : String) (accounted : embedded text) : Traced (Embedding.term text)
  | list (items : List Term) (each : ∀ item ∈ items, Traced item) : Traced (.list items)
  | object (members : List (String × Term)) (each : ∀ member ∈ members, Traced member.2) :
      Traced (.object members)

inductive Origin (way : List Term) (inner : Term) : Prop
  | quiet (settled : inner.isEvaluated = false)
  | expression (name : String) (accounted : deferred name) (same : inner = .expression name)
  | literal (text : String) (accounted : embedded text) (inside : Embedding.term text ∈ way)
      (other : ∀ name, inner ≠ .expression name)

variable {deferred embedded}

theorem Origin.below {way : List Term} {inner : Term} (outer : Term)
    (origin : Origin deferred embedded way inner) : Origin deferred embedded (outer :: way) inner := by
  cases origin with
  | quiet settled => exact .quiet settled
  | expression name accounted same => exact .expression name accounted same
  | literal text accounted inside other =>
    exact .literal text accounted (List.mem_cons_of_mem outer inside) other

theorem Traced.origin {outer inner : Term} {way : List Term} (descends : outer.Descends way inner)
    (traced : outer.Traced deferred embedded) : Origin deferred embedded way inner := by
  -- along the way down: only below a list or an object is the term inside traced itself
  induction descends with
  | here term =>
    cases traced with
    | inert _ quiet => exact .quiet (quiet _ _ (.here term))
    | expression name accounted => exact .expression name accounted rfl
    | literal text accounted =>
      exact .literal text accounted (by simp) (Embedding.withoutExpressions_term text _ _ (.here _))
    | list => exact .quiet rfl
    | object => exact .quiet rfl
  | down outer part inner way inside further ih =>
    have whole : outer.Descends (outer :: way) inner := .down outer part inner way inside further
    cases traced with
    | inert _ quiet => exact .quiet (quiet _ _ whole)
    | expression name accounted => cases inside
    | literal text accounted =>
      exact .literal text accounted (by simp) (Embedding.withoutExpressions_term text _ _ whole)
    | list items each => exact (ih (each part inside)).below _
    | object members each =>
      obtain ⟨member,present,rfl⟩ := List.mem_map.mp inside
      exact (ih (each member present)).below _

end Term

private theorem Request.exists_json_of_variableTerm_ok {request : Request}
    {operation : Document.Operation} {name : String} {location : Location} {term : Term}
    (ok : request.variableTerm operation name location = .ok term) :
    ∃ json, term = .ofJson json := by
  cases resolves_of_variableTerm_eq ok with
  | submitted declaration value => exact ⟨value,rfl⟩
  | byDefault declaration value => exact ⟨value.toJson,rfl⟩
  -- a variable without a value is null, as it would be if null were submitted
  | null => exact ⟨.null,rfl⟩

theorem Request.inert_of_variableTerm_ok {request : Request} {operation : Document.Operation}
    {name : String} {location : Location} {term : Term}
    (ok : request.variableTerm operation name location = .ok term) : term.Inert := by
  obtain ⟨json,rfl⟩ := exists_json_of_variableTerm_ok ok
  exact Term.inert_ofJson json

namespace Scope

section Conversion

variable {scope : Scope} {location : Location} {deferred embedded : String → Prop}

private theorem traced_of_variableTerm_ok {name : Name} {term : Term}
    (names : scope.settings.expressionVariables = true → isExpressionName name.text = true →
      deferred name.text)
    (ok : scope.variableTerm name location = .ok term) : term.Traced deferred embedded := by
  by_cases later : (scope.settings.expressionVariables && isExpressionName name.text) = true
  · rw [variableTerm_of_deferred later] at ok
    cases ok
    rw [Bool.and_eq_true] at later
    exact .expression name.text (names later.1 later.2)
  · rw [variableTerm_of_immediate later] at ok
    exact .inert term (Request.inert_of_variableTerm_ok ok)

private theorem traced_stringTerm {text : String}
    (texts : scope.settings.embeddedFields = true → embedded text) :
    (scope.stringTerm text).Traced deferred embedded := by
  unfold stringTerm
  split
  next enabled => exact .literal text (texts enabled)
  next => exact .inert _ (Term.inert_ofJson (.string text))

variable (scope deferred embedded) in
structure Admits (names : List Name) (texts : List String) : Prop where
  names : ∀ name ∈ names, scope.settings.expressionVariables = true →
    isExpressionName name.text = true → deferred name.text
  texts : ∀ text ∈ texts, scope.settings.embeddedFields = true → embedded text

private theorem Admits.of_append {names others : List Name} {texts more : List String}
    (admits : scope.Admits deferred embedded (names ++ others) (texts ++ more)) :
    scope.Admits deferred embedded names texts ∧ scope.Admits deferred embedded others more := by
  obtain ⟨named,written⟩ := admits
  rw [List.forall_mem_append] at named written
  exact ⟨⟨named.1,written.1⟩,⟨named.2,written.2⟩⟩

mutual

theorem traced_of_term_ok : (value : Document.Value) → {term : Term} →
    scope.Admits deferred embedded value.references value.literals →
    scope.term location value = .ok term → term.Traced deferred embedded
  | .reference name, _, admits, ok =>
    traced_of_variableTerm_ok (admits.names name (by simp [Document.Value.references])) ok
  | .null, _, _, rfl => .inert _ (Term.inert_of_parts_eq_nil rfl rfl)
  | .bool _, _, _, rfl => .inert _ (Term.inert_of_parts_eq_nil rfl rfl)
  | .int _, _, _, rfl => .inert _ (Term.inert_of_parts_eq_nil rfl rfl)
  | .float _, _, _, rfl => .inert _ (Term.inert_of_parts_eq_nil rfl rfl)
  | .string text, _, admits, rfl =>
    traced_stringTerm (admits.texts text (by simp [Document.Value.literals]))
  | .enum _, _, _, rfl => .inert _ (Term.inert_of_parts_eq_nil rfl rfl)
  | .list items, _, admits, ok => by
    obtain ⟨terms,computed,rfl⟩ := map_eq_ok_iff.mp ok
    exact .list terms (traced_of_terms_ok items admits computed)
  | .object members, _, admits, ok => by
    obtain ⟨arguments,computed,rfl⟩ := map_eq_ok_iff.mp ok
    exact .object arguments (traced_of_arguments_ok members admits computed)

private theorem traced_of_terms_ok : (items : List Document.Value) → {terms : List Term} →
    scope.Admits deferred embedded (Document.Value.itemReferences items)
      (Document.Value.itemLiterals items) →
    scope.terms location items = .ok terms → ∀ term ∈ terms, term.Traced deferred embedded
  | [], _, _, rfl => by simp
  | item :: items, _, admits, ok => by
    obtain ⟨first,rest,head,tail,rfl⟩ := terms_cons_ok_iff.mp ok
    obtain ⟨here,later⟩ := Admits.of_append admits
    exact List.forall_mem_cons.mpr
      ⟨traced_of_term_ok item here head,traced_of_terms_ok items later tail⟩

private theorem traced_of_arguments_ok : (members : Document.Arguments) → {arguments : Arguments} →
    scope.Admits deferred embedded (Document.Value.memberReferences members)
      (Document.Value.memberLiterals members) →
    scope.arguments location members = .ok arguments →
    ∀ member ∈ arguments, member.2.Traced deferred embedded
  | [], _, _, rfl => by simp
  | (key,value) :: members, _, admits, ok => by
    obtain ⟨first,rest,head,tail,rfl⟩ := arguments_cons_ok_iff.mp ok
    obtain ⟨here,later⟩ := Admits.of_append admits
    exact List.forall_mem_cons.mpr
      ⟨traced_of_term_ok value here head,traced_of_arguments_ok members later tail⟩

end

end Conversion

end Scope

end FlatQuery
