import FlatQuery.Scope

/-! How the conversion of arguments and directives follows their lists: it succeeds if it does for
each member, and what it hands over comes from a member. -/

namespace FlatQuery

theorem bind_eq_ok_iff {ε α β : Type} {first : Except ε α} {next : α → Except ε β} {result : β} :
    (first >>= next) = .ok result ↔ ∃ value, first = .ok value ∧ next value = .ok result := by
  cases first with
  | error problem => simp [bind,Except.bind]
  | ok value => simp [bind,Except.bind]

theorem pure_eq_ok_iff {ε α : Type} {value result : α} :
    (pure value : Except ε α) = .ok result ↔ result = value := by
  simp [pure,Except.pure,eq_comm]

theorem map_eq_ok_iff {ε α β : Type} {first : Except ε α} {f : α → β} {result : β} :
    first.map f = .ok result ↔ ∃ value, first = .ok value ∧ result = f value := by
  cases first <;> simp [Except.map,eq_comm]

theorem mapError_eq_ok_iff {ε δ α : Type} {first : Except ε α} {f : ε → δ} {result : α} :
    first.mapError f = .ok result ↔ first = .ok result := by
  cases first with
  | error problem =>
    change Except.error (f problem) = .ok result ↔ _
    simp
  | ok value =>
    change Except.ok value = .ok result ↔ _
    simp

theorem mapError_eq_error_iff {ε δ α : Type} {first : Except ε α} {f : ε → δ} {result : δ} :
    first.mapError f = .error result ↔ ∃ problem, first = .error problem ∧ result = f problem := by
  cases first with
  | error problem =>
    change Except.error (f problem) = .error result ↔ _
    simp [eq_comm]
  | ok value =>
    change Except.ok value = .error result ↔ _
    simp

theorem exists_ok_of_any {ε α : Type} {first : Except ε α} {test : α → Bool}
    (passed : first.toOption.any test = true) : ∃ value, first = .ok value ∧ test value = true := by
  cases first with
  | error problem => cases passed
  | ok value => exact ⟨value,rfl,passed⟩

namespace Request

/-- What a variable resolves to, with what decides it: its first declaration, the value that was
submitted and the default. -/
inductive Resolves (request : Request) (operation : Document.Operation) (name : String)
    (location : Location) : Except Problem Term → Prop
  | undeclared (absent : operation.declarations.find? (·.name.text = name) = none) :
      Resolves request operation name location (.error (.undefinedVariable name location))
  | submitted (declaration : Document.Declaration) (value : Json)
      (found : operation.declarations.find? (·.name.text = name) = some declaration)
      (given : Json.get? name request.values = some value) :
      Resolves request operation name location (.ok (.ofJson value))
  | byDefault (declaration : Document.Declaration) (value : Document.Value)
      (found : operation.declarations.find? (·.name.text = name) = some declaration)
      (missing : Json.get? name request.values = none)
      (default : declaration.default? = some value) :
      Resolves request operation name location (.ok (.ofJson value.toJson))
  | unset (declaration : Document.Declaration)
      (found : operation.declarations.find? (·.name.text = name) = some declaration)
      (missing : Json.get? name request.values = none) (plain : declaration.default? = none)
      (required : declaration.type.isNonNull = true) :
      Resolves request operation name location (.error (.missingValue name location))
  | null (declaration : Document.Declaration)
      (found : operation.declarations.find? (·.name.text = name) = some declaration)
      (missing : Json.get? name request.values = none) (plain : declaration.default? = none)
      (nullable : ¬ declaration.type.isNonNull = true) :
      Resolves request operation name location (.ok .null)

theorem resolves_variableTerm (request : Request) (operation : Document.Operation) (name : String)
    (location : Location) :
    request.Resolves operation name location (request.variableTerm operation name location) := by
  unfold variableTerm
  split
  next absent => exact .undeclared absent
  next declaration found =>
    split
    next value given => exact .submitted declaration value found given
    next missing =>
      split
      next value default => exact .byDefault declaration value found missing default
      next plain =>
        split
        next required => exact .unset declaration found missing plain required
        next nullable => exact .null declaration found missing plain nullable

theorem resolves_of_variableTerm_eq {request : Request} {operation : Document.Operation}
    {name : String} {location : Location} {result : Except Problem Term}
    (resolved : request.variableTerm operation name location = result) :
    request.Resolves operation name location result :=
  resolved ▸ request.resolves_variableTerm operation name location

end Request

namespace Scope

variable {scope : Scope} {location : Location}

theorem variableTerm_of_deferred {name : Name}
    (deferred : (scope.settings.expressionVariables && isExpressionName name.text) = true) :
    scope.variableTerm name location = .ok (.expression name.text) :=
  if_pos deferred

theorem variableTerm_of_immediate {name : Name}
    (immediate : ¬ (scope.settings.expressionVariables && isExpressionName name.text) = true) :
    scope.variableTerm name location =
      scope.request.variableTerm scope.operation name.text location :=
  if_neg immediate

theorem terms_cons_ok_iff {item : Document.Value} {items : List Document.Value} {terms : List Term} :
    scope.terms location (item :: items) = .ok terms ↔
      ∃ first rest, scope.term location item = .ok first ∧
        scope.terms location items = .ok rest ∧ terms = first :: rest := by
  simp only [Scope.terms,bind_eq_ok_iff,pure_eq_ok_iff]
  grind

theorem arguments_cons_ok_iff {key : Name} {value : Document.Value} {members : Document.Arguments}
    {arguments : Arguments} :
    scope.arguments location ((key,value) :: members) = .ok arguments ↔
      ∃ first rest, scope.term location value = .ok first ∧
        scope.arguments location members = .ok rest ∧ arguments = (key.text,first) :: rest := by
  simp only [Scope.arguments,bind_eq_ok_iff,pure_eq_ok_iff]
  grind

theorem directive_ok_iff {written : Document.Directive} {directive : Directive} :
    scope.directive written = .ok directive ↔ directive.name = written.name.text ∧
      scope.arguments written.location written.arguments = .ok directive.arguments := by
  simp only [Scope.directive,bind_eq_ok_iff,pure_eq_ok_iff]
  constructor
  · intro found
    obtain ⟨arguments,computed,rfl⟩ := found
    exact ⟨rfl,computed⟩
  · intro found
    obtain ⟨name,computed⟩ := found
    refine ⟨_,computed,?_⟩
    cases directive
    simpa using name

theorem directives_cons_ok_iff {first : Document.Directive} {rest : List Document.Directive}
    {directives : List Directive} :
    scope.directives (first :: rest) = .ok directives ↔
      ∃ head tail, scope.directive first = .ok head ∧ scope.directives rest = .ok tail ∧
        directives = head :: tail := by
  simp only [Scope.directives,bind_eq_ok_iff,pure_eq_ok_iff]
  grind

theorem exists_term_of_mem {members : Document.Arguments} {arguments : Arguments} {key : String}
    {term : Term} (ok : scope.arguments location members = .ok arguments)
    (inside : (key,term) ∈ arguments) :
    ∃ name value, (name,value) ∈ members ∧ key = name.text ∧ scope.term location value = .ok term := by
  induction members generalizing arguments with
  | nil =>
    cases ok
    cases inside
  | cons member members ih =>
    obtain ⟨first,rest,head,tail,rfl⟩ := arguments_cons_ok_iff.mp ok
    rcases List.mem_cons.mp inside with same | later
    · cases same
      exact ⟨member.1,member.2,by simp,rfl,head⟩
    · obtain ⟨name,value,present,named,converted⟩ := ih tail later
      exact ⟨name,value,by simp [present],named,converted⟩

theorem exists_directive_of_mem {written : List Document.Directive} {directives : List Directive}
    {directive : Directive} (ok : scope.directives written = .ok directives)
    (inside : directive ∈ directives) :
    ∃ source ∈ written, scope.directive source = .ok directive := by
  induction written generalizing directives with
  | nil =>
    cases ok
    cases inside
  | cons first rest ih =>
    obtain ⟨head,tail,converted,remaining,rfl⟩ := directives_cons_ok_iff.mp ok
    rcases List.mem_cons.mp inside with rfl | later
    · exact ⟨first,by simp,converted⟩
    · obtain ⟨source,present,found⟩ := ih remaining later
      exact ⟨source,by simp [present],found⟩

end Scope

end FlatQuery
