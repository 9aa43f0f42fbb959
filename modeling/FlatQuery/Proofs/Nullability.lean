import FlatQuery.Proofs.Batches
import FlatQuery.Proofs.Nesting
import FlatQuery.Proofs.Rendered

/-! When variables are null. A type that takes no null is consulted only for a variable without a
value and without a default: values and defaults are taken as they are. So a variable of such a type
is written as null if and only if null is what was submitted for it or what its default stands for. -/

namespace FlatQuery

namespace Term

private theorem ne_null_of_isNumeric {cs : List Char} (numeric : cs.all Decimal.isNumeric = true) :
    cs ≠ "null".toList := by
  intro same
  rw [same] at numeric
  cases numeric

private theorem chars_float_ne_null (value : Decimal.Double) :
    (float value).chars ≠ "null".toList := by
  cases value with
  | nan => simp [chars,Decimal.Double.chars]
  | infinite negative => cases negative <;> simp [chars,Decimal.Double.chars,Decimal.Double.sign]
  | finite negative mantissa exponent =>
    have finite : (Decimal.Double.finite negative mantissa exponent).isFinite = true := rfl
    exact ne_null_of_isNumeric (Decimal.Double.all_isNumeric_chars finite)

private theorem chars_string_ne_null (value : String) : (string value).chars ≠ "null".toList := by
  rw [chars,Text.bareOrQuoted]
  split
  next bare =>
    intro same
    rw [same] at bare
    cases bare
  next => simp [Text.quote]

theorem text_ofJson_eq_null_iff (json : Json) : (ofJson json).text = "null" ↔ json = .null := by
  have written (term : Term) : term.text = "null" ↔ term.chars = "null".toList := by
    rw [text,← String.toList_inj,String.toList_ofList]
  rw [written]
  cases json with
  | null => simp [ofJson,chars]
  | bool value => cases value <;> simp [ofJson,chars]
  | integer value =>
    refine iff_of_false ?_ (by simp)
    rw [ofJson,ofInteger]
    split
    · exact ne_null_of_isNumeric (Decimal.all_isNumeric_ofInt value)
    · exact chars_float_ne_null _
  | real value => exact iff_of_false (chars_float_ne_null value) (by simp)
  | string value => exact iff_of_false (chars_string_ne_null value) (by simp)
  | array items => simp [ofJson,chars]
  | object members => simp [ofJson,chars]

end Term

namespace Document.Value

/-- The constants that stand for null as a default. -/
def isNull : Value → Bool
  | .null | .reference _ => true
  | .float value => !value.isFinite
  | .bool _ | .int _ | .string _ | .enum _ | .list _ | .object _ => false

theorem toJson_eq_null_iff (value : Value) : value.toJson = .null ↔ value.isNull = true := by
  cases value with
  | float value =>
    rw [toJson,isNull]
    split <;> simp_all
  | _ => simp [toJson,isNull]

end Document.Value

namespace Request

section

variable (request : Request) (name : String) (declaration : Document.Declaration)

/-- Null is what is submitted for a variable, or what its default stands for if nothing is. -/
inductive SuppliesNull : Prop
  | submitted (given : Json.get? name request.values = some .null)
  | byDefault (value : Document.Value) (missing : Json.get? name request.values = none)
      (default : declaration.default? = some value) (null : value.isNull = true)

structure SuppliesNothing : Prop where
  missing : Json.get? name request.values = none
  plain : declaration.default? = none

end

variable {request : Request} {operation : Document.Operation} {name : String} {location : Location}
  {declaration : Document.Declaration} {term : Term}

theorem text_eq_null_iff_of_variableTerm_ok
    (declared : operation.declarations.find? (·.name.text = name) = some declaration)
    (ok : request.variableTerm operation name location = .ok term) :
    term.text = "null" ↔ request.SuppliesNull name declaration ∨
      request.SuppliesNothing name declaration ∧ declaration.type.isNonNull = false := by
  cases resolves_of_variableTerm_eq ok with
  | submitted first value found given =>
    rw [Term.text_ofJson_eq_null_iff]
    constructor
    · rintro rfl
      exact .inl (.submitted given)
    · rintro ((given' | ⟨_,missing,_⟩) | ⟨⟨missing,_⟩,_⟩)
      · exact Option.some.inj (given.symm.trans given')
      · cases given.symm.trans missing
      · cases given.symm.trans missing
  | byDefault first value found missing default =>
    cases Option.some.inj (found.symm.trans declared)
    rw [Term.text_ofJson_eq_null_iff,Document.Value.toJson_eq_null_iff]
    constructor
    · intro null
      exact .inl (.byDefault value missing default null)
    · rintro ((given | ⟨other,_,default',null⟩) | ⟨⟨_,plain⟩,_⟩)
      · cases missing.symm.trans given
      · cases Option.some.inj (default.symm.trans default')
        exact null
      · cases default.symm.trans plain
  | null first found missing plain nullable =>
    cases Option.some.inj (found.symm.trans declared)
    exact iff_of_true rfl (.inr ⟨⟨missing,plain⟩,by simpa using nullable⟩)

private theorem exists_declaration_of_variableTerm_ok
    (ok : request.variableTerm operation name location = .ok term) :
    ∃ declaration, operation.declarations.find? (·.name.text = name) = some declaration := by
  cases resolves_of_variableTerm_eq ok with
  | submitted declaration _ found => exact ⟨declaration,found⟩
  | byDefault declaration _ found => exact ⟨declaration,found⟩
  | null declaration found => exact ⟨declaration,found⟩

theorem variableTerm_eq_null_iff :
    request.variableTerm operation name location = .ok .null ↔
      ∃ declaration, operation.declarations.find? (·.name.text = name) = some declaration ∧
        (request.SuppliesNull name declaration ∨
          request.SuppliesNothing name declaration ∧ declaration.type.isNonNull = false) := by
  constructor
  · intro ok
    obtain ⟨declaration,declared⟩ := exists_declaration_of_variableTerm_ok ok
    exact ⟨declaration,declared,(text_eq_null_iff_of_variableTerm_ok declared ok).mp rfl⟩
  · rintro ⟨declaration,declared,(given | ⟨value,missing,default,null⟩) | ⟨⟨missing,plain⟩,nullable⟩⟩
    · simp only [variableTerm,declared,given]
      rfl
    · rw [← Document.Value.toJson_eq_null_iff] at null
      simp only [variableTerm,declared,missing,default,null]
      rfl
    · simp [variableTerm,declared,missing,plain,nullable]

end Request

namespace Scope

/-- A variable is null exactly if null is supplied for it, or nothing is and its type allows that. So
where an operation has paths, an argument that is a variable stands in a step of one of them, and if
the type of the variable is one without null, it is written there as null exactly if null is supplied
for it. -/
theorem null_exactly_if_supplied :
    (∀ (request : Request) (operation : Document.Operation) (name : String) (location : Location),
      request.variableTerm operation name location = .ok .null ↔
        ∃ declaration, operation.declarations.find? (·.name.text = name) = some declaration ∧
          (request.SuppliesNull name declaration ∨
            request.SuppliesNothing name declaration ∧ declaration.type.isNonNull = false)) ∧
    ∀ (scope : Scope) (paths : List Path), scope.operationPaths = .ok paths →
      ∀ selection, scope.request.Reaches scope.operation.selections.toList selection →
      ∀ place key name, (place,key,.reference name) ∈ selection.members →
        (scope.settings.expressionVariables && isExpressionName name.text) = false →
        ∃ declaration term,
          scope.operation.declarations.find? (·.name.text = name.text) = some declaration ∧
          scope.term place (.reference name) = .ok term ∧
          Path.Shows paths (key.text,term) ∧
          (declaration.type.isNonNull = true →
            (term.text = "null" ↔ scope.request.SuppliesNull name.text declaration)) := by
  refine ⟨fun _ _ _ _ => Request.variableTerm_eq_null_iff,?_⟩
  intro scope paths ok selection reached place key name inside immediate
  obtain ⟨term,converted,shown⟩ := exists_shown_of_operationPaths_ok ok reached inside
  have resolved : scope.request.variableTerm scope.operation name.text place = .ok term := by
    rw [← variableTerm_of_immediate (by simp [immediate])]
    exact converted
  obtain ⟨declaration,declared⟩ := Request.exists_declaration_of_variableTerm_ok resolved
  refine ⟨declaration,term,declared,converted,shown,?_⟩
  intro required
  rw [Request.text_eq_null_iff_of_variableTerm_ok declared resolved,required]
  simp

def requiredField : Document.Field where
  location := .start
  alias? := none
  name := ⟨"ship",rfl⟩
  arguments := [(⟨"port",rfl⟩,.reference ⟨"dock",rfl⟩),(⟨"crew",rfl⟩,.reference ⟨"hands",rfl⟩)]
  directives := []

def requiredSample : Scope where
  settings := .allOff
  request := ⟨[],[],[("dock",.null)]⟩
  operation :=
    { name? := none
      kind := .query
      location := .start
      declarations := [⟨⟨"dock",rfl⟩,.nonNull (.named ⟨"Int",rfl⟩),none⟩,
        ⟨⟨"hands",rfl⟩,.nonNull (.named ⟨"Int",rfl⟩),some (.int 7)⟩]
      selections := .single (.leaf requiredField) }

theorem requiredSample_written :
    ∃ paths, requiredSample.operationPaths = .ok paths ∧
      (∃ term, requiredSample.term .start (.reference ⟨"dock",rfl⟩) = .ok term ∧
        Path.Shows paths ("port",term) ∧ term.text = "null") ∧
      ∃ term, requiredSample.term .start (.reference ⟨"hands",rfl⟩) = .ok term ∧
        Path.Shows paths ("crew",term) ∧ term.text ≠ "null" := by
  have walked : requiredSample.operationPaths =
      .ok [[⟨"ship",[("port",.null),("crew",.int 7)],none,[]⟩]] := by
    with_unfolding_all rfl
  have each := null_exactly_if_supplied.2 requiredSample _ walked (.leaf requiredField)
    (.direct _ (List.mem_singleton.mpr rfl)) .start
  refine ⟨_,walked,?_,?_⟩
  · obtain ⟨_,term,declared,converted,shown,exactly⟩ := each ⟨"port",rfl⟩ ⟨"dock",rfl⟩ (.head _) rfl
    cases declared
    exact ⟨term,converted,shown,(exactly rfl).mpr (.submitted rfl)⟩
  · obtain ⟨_,term,declared,converted,shown,exactly⟩ :=
      each ⟨"crew",rfl⟩ ⟨"hands",rfl⟩ (.tail _ (.head _)) rfl
    cases declared
    refine ⟨term,converted,shown,?_⟩
    intro null
    rcases (exactly rfl).mp null with given | ⟨value,_,default,standing⟩
    · cases given
    · cases default
      cases standing

end Scope

namespace Submission

def NullsRequired (submission : Submission) : Prop :=
  ∃ request operation declaration batch, Request.ofSubmission submission = .ok request ∧
    operation ∈ request.operations ∧
    operation.declarations.find? (·.name.text = "x") = some declaration ∧
    declaration.type.isNonNull = true ∧
    request.variableTerm operation "x" .start = .ok .null ∧
    Batch.ofRequest .allOff request = .ok batch ∧ batch.text = "a(v:null)"

def nullsRequired (submission : Submission) : Bool :=
  (Request.ofSubmission submission).toOption.any fun request =>
    request.operations.any fun operation =>
      (operation.declarations.find? (·.name.text = "x")).any (·.type.isNonNull) &&
      (request.variableTerm operation "x" .start).toOption.any (·.text = "null") &&
      (Batch.ofRequest .allOff request).toOption.any (·.text = "a(v:null)")

theorem nullsRequired_sound {submission : Submission} (checked : submission.nullsRequired = true) :
    submission.NullsRequired := by
  obtain ⟨request,accepted,found⟩ := exists_ok_of_any checked
  obtain ⟨operation,inside,both⟩ := List.any_eq_true.mp found
  rw [Bool.and_eq_true,Bool.and_eq_true] at both
  obtain ⟨⟨first,resolved⟩,converted⟩ := both
  obtain ⟨declaration,declared,required⟩ := (Option.any_eq_true _ _).mp first
  obtain ⟨term,ok,null⟩ := exists_ok_of_any resolved
  obtain ⟨batch,gathered,written⟩ := exists_ok_of_any converted
  have supplied := (Request.text_eq_null_iff_of_variableTerm_ok declared ok).mp (of_decide_eq_true null)
  exact ⟨request,operation,declaration,batch,accepted,inside,declared,required,
    Request.variableTerm_eq_null_iff.mpr ⟨declaration,declared,supplied⟩,gathered,
    of_decide_eq_true written⟩

/-- Null is not refused for a type without null: neither as a value, nor as a default, nor as what a
default that is out of range stands for. -/
theorem required_variables_nulled :
    NullsRequired ⟨"query Q($x: Int!) { a(v: $x) }",[("x",.null)],false,none⟩ ∧
    NullsRequired ⟨"query Q($x: Int! = null) { a(v: $x) }",[],false,none⟩ ∧
    NullsRequired ⟨"query Q($x: Float! = 1e800) { a(v: $x) }",[],false,none⟩ :=
  ⟨nullsRequired_sound (by decide +kernel),nullsRequired_sound (by decide +kernel),
    nullsRequired_sound (by decide +kernel)⟩

end Submission

end FlatQuery
