import FlatQuery.Proofs.Agreement
import FlatQuery.Proofs.References

/-! Settings that are not used. Variables that are left for later matter only to a request that
mentions a variable with an underscore, and embedded fields only to one that writes a literal with a
reference. Any other request has the same batch or the same problem whatever these settings say. -/

namespace FlatQuery

namespace Request

/-- The variable stands in a value that an operation of the request reaches. -/
def Mentions (request : Request) (name : Name) : Prop :=
  ∃ operation ∈ request.operations, ∃ selection,
    request.Reaches operation.selections.toList selection ∧
    ∃ value ∈ selection.values, name ∈ value.2.references

/-- The literal stands in a value that an operation of the request reaches. -/
def Writes (request : Request) (literal : String) : Prop :=
  ∃ operation ∈ request.operations, ∃ selection,
    request.Reaches operation.selections.toList selection ∧
    ∃ value ∈ selection.values, literal ∈ value.2.literals

end Request

namespace Scope

theorem stringTerm_of_not_refers (scope : Scope) {literal : String}
    (plain : ∀ position name, ¬ Embedding.RefersAt literal.toList position name) :
    scope.stringTerm literal = .string literal := by
  have same : Embedding.term literal = .string literal :=
    (Embedding.term_eq_string_iff literal).mpr plain
  rw [stringTerm,same,ite_self]

section Settings

variable {first second : Settings} (request : Request) (operation : Document.Operation)

private theorem stringTerm_of_settings {literal : String}
    (unused : second.embeddedFields = first.embeddedFields ∨
      ∀ position name, ¬ Embedding.RefersAt literal.toList position name) :
    stringTerm ⟨second,request,operation⟩ literal = stringTerm ⟨first,request,operation⟩ literal := by
  rcases unused with same | plain
  · rw [stringTerm,stringTerm,same]
  · rw [stringTerm_of_not_refers _ plain,stringTerm_of_not_refers _ plain]

private theorem variableTerm_of_settings {name : Name} {location : Location}
    (unused : second.expressionVariables = first.expressionVariables ∨
      isExpressionName name.text = false) :
    variableTerm ⟨second,request,operation⟩ name location =
      variableTerm ⟨first,request,operation⟩ name location := by
  rcases unused with same | plain
  · rw [variableTerm,variableTerm,same]
  · have immediate (settings : Settings) :
        ¬ (settings.expressionVariables && isExpressionName name.text) = true := by
      simp [plain]
    rw [variableTerm_of_immediate (immediate second),variableTerm_of_immediate (immediate first)]

end Settings

private theorem agrees_of_settings {first second : Settings} {request : Request}
    {operation : Document.Operation} (inside : operation ∈ request.operations)
    (expressions : second.expressionVariables = first.expressionVariables ∨
      ∀ name, request.Mentions name → isExpressionName name.text = false)
    (literals : second.embeddedFields = first.embeddedFields ∨
      ∀ literal, request.Writes literal →
        ∀ position name, ¬ Embedding.RefersAt literal.toList position name) :
    Agrees ⟨first,request,operation⟩ ⟨second,request,operation⟩ operation.selections.toList where
  fragments _ _ _ _ := rfl
  values := by
    intro selection reached value written
    apply term_congr
    · intro literal present
      apply stringTerm_of_settings
      exact literals.imp id fun plain =>
        plain literal ⟨operation,inside,selection,reached,value,written,present⟩
    · intro name present
      apply variableTerm_of_settings
      exact expressions.imp id fun plain =>
        plain name ⟨operation,inside,selection,reached,value,written,present⟩

end Scope

namespace Batch

/-- Two settings give the same batch or the same problem if each of them that differs is not used: no
variable with an underscore is mentioned, or no literal with a reference is written. A literal without
a reference stays as it is under all settings. -/
theorem ofRequest_eq_of_settings_unused (first second : Settings) (request : Request) :
    ((second.expressionVariables = first.expressionVariables ∨
        ∀ name, request.Mentions name → isExpressionName name.text = false) →
      (second.embeddedFields = first.embeddedFields ∨
        ∀ literal, request.Writes literal →
          ∀ position name, ¬ Embedding.RefersAt literal.toList position name) →
      ofRequest second request = ofRequest first request) ∧
    ∀ (scope : Scope) (literal : String),
      (∀ position name, ¬ Embedding.RefersAt literal.toList position name) →
      scope.stringTerm literal = .string literal := by
  refine ⟨?_,fun scope literal plain => scope.stringTerm_of_not_refers plain⟩
  intro expressions literals
  apply extend_congr
  intro operation inside
  have agrees := Scope.agrees_of_settings inside expressions literals
  exact Scope.operationPaths_congr rfl agrees

def bracesLiteral : String := "100% {{ a }} \x7bb"

def bracesOperation : Document.Operation where
  name? := none
  kind := .query
  location := .start
  declarations := [⟨⟨"spot",rfl⟩,.named ⟨"Point",rfl⟩,none⟩]
  selections := .single (.spread ⟨"Sign",rfl⟩ .start [])

def bracesSample : Request where
  operations := [bracesOperation]
  fragments := [⟨⟨"Sign",rfl⟩,⟨"Board",rfl⟩,.single (.leaf ⟨.start,none,⟨"sign",rfl⟩,
    [(⟨"caption",rfl⟩,.list [.string bracesLiteral,.reference ⟨"spot",rfl⟩])],[]⟩)⟩]
  values := [("spot",.string "{{name}}")]

private theorem bracesSample_values {value : Location × Document.Value}
    (found : ∃ operation ∈ bracesSample.operations, ∃ selection,
      bracesSample.Reaches operation.selections.toList selection ∧ value ∈ selection.values) :
    value.2.references = [⟨"spot",rfl⟩] ∧ value.2.literals = [bracesLiteral] := by
  obtain ⟨operation,inside,selection,reached,written⟩ := found
  cases List.mem_singleton.mp inside
  have only := reached.holds
    (fun selection => selection = .spread ⟨"Sign",rfl⟩ .start [] ∨
      selection ∈ bracesSample.contents (.spread ⟨"Sign",rfl⟩ .start []))
    (fun _ inside => .inl (List.mem_singleton.mp inside)) ?_
  · rcases only with rfl | below
    · cases written
    · cases List.mem_singleton.mp below
      cases List.mem_singleton.mp written
      exact ⟨rfl,rfl⟩
  · rintro outer (rfl | below) inner inside
    · exact .inr inside
    · cases List.mem_singleton.mp below
      cases inside

theorem ofRequest_bracesSample :
    (ofRequest .allOff bracesSample).isOk = true ∧
    ofRequest ⟨true,true,false⟩ bracesSample = ofRequest .allOff bracesSample ∧
    Scope.stringTerm ⟨⟨true,true,false⟩,bracesSample,bracesOperation⟩ bracesLiteral =
      .string bracesLiteral := by
  have plain (position : Nat) (name : Name) :
      ¬ Embedding.RefersAt bracesLiteral.toList position name :=
    (Embedding.names_eq_nil_iff _).mp (by decide +kernel) position name
  obtain ⟨same,kept⟩ := ofRequest_eq_of_settings_unused .allOff ⟨true,true,false⟩ bracesSample
  refine ⟨by decide +kernel,same (.inr ?_) (.inr ?_),kept _ _ plain⟩
  · rintro name ⟨operation,inside,selection,reached,value,written,mentioned⟩
    have values := bracesSample_values ⟨operation,inside,selection,reached,written⟩
    rw [values.1,List.mem_singleton] at mentioned
    subst mentioned
    decide
  · rintro literal ⟨operation,inside,selection,reached,value,written,present⟩
    have values := bracesSample_values ⟨operation,inside,selection,reached,written⟩
    rw [values.2,List.mem_singleton] at present
    subst present
    exact plain

end Batch

end FlatQuery
