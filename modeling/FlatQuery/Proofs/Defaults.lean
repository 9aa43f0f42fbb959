import FlatQuery.Proofs.Constants
import FlatQuery.Proofs.Spelling

/-! Defaults are written like literals. The default of a variable goes through JSON, where enumeration
values are strings and infinite floats are null; a literal in its place does not. Their terms differ,
but not their texts, as long as the literal has null for infinite floats too. -/

namespace FlatQuery

namespace Document.Value

mutual

/-- A value with null for each float in it that is not finite. -/
def withoutInfinities : Value → Value
  | .reference name => .reference name
  | .null => .null
  | .bool value => .bool value
  | .int value => .int value
  | .float value => if value.isFinite then .float value else .null
  | .string value => .string value
  | .enum name => .enum name
  | .list items => .list (itemsWithoutInfinities items)
  | .object members => .object (membersWithoutInfinities members)

def itemsWithoutInfinities : List Value → List Value
  | [] => []
  | item :: items => item.withoutInfinities :: itemsWithoutInfinities items

def membersWithoutInfinities : List (Name × Value) → List (Name × Value)
  | [] => []
  | (key,value) :: members => (key,value.withoutInfinities) :: membersWithoutInfinities members

end

mutual

def isFinite : Value → Bool
  | .float value => value.isFinite
  | .list items => itemsFinite items
  | .object members => membersFinite members
  | .reference _ | .null | .bool _ | .int _ | .string _ | .enum _ => true

def itemsFinite : List Value → Bool
  | [] => true
  | item :: items => item.isFinite && itemsFinite items

def membersFinite : List (Name × Value) → Bool
  | [] => true
  | (_,value) :: members => value.isFinite && membersFinite members

end

mutual

theorem withoutInfinities_of_isFinite : (value : Value) → value.isFinite = true →
    value.withoutInfinities = value
  | .reference _, _ => rfl
  | .null, _ => rfl
  | .bool _, _ => rfl
  | .int _, _ => rfl
  | .float _, finite => if_pos finite
  | .string _, _ => rfl
  | .enum _, _ => rfl
  | .list items, finite => congrArg list (itemsWithoutInfinities_of_itemsFinite items finite)
  | .object members, finite =>
    congrArg object (membersWithoutInfinities_of_membersFinite members finite)

private theorem itemsWithoutInfinities_of_itemsFinite :
    (items : List Value) → itemsFinite items = true → itemsWithoutInfinities items = items
  | [], _ => rfl
  | item :: items, finite => by
    rw [itemsFinite,Bool.and_eq_true] at finite
    rw [itemsWithoutInfinities,withoutInfinities_of_isFinite item finite.1,
      itemsWithoutInfinities_of_itemsFinite items finite.2]

private theorem membersWithoutInfinities_of_membersFinite : (members : List (Name × Value)) →
    membersFinite members = true → membersWithoutInfinities members = members
  | [], _ => rfl
  | (key,value) :: members, finite => by
    rw [membersFinite,Bool.and_eq_true] at finite
    rw [membersWithoutInfinities,withoutInfinities_of_isFinite value finite.1,
      membersWithoutInfinities_of_membersFinite members finite.2]

end

end Document.Value

namespace Scope

section Literals

open Document.Value

variable {scope : Scope} (place : Location)

mutual

theorem exists_term_of_isConstant (plain : scope.settings.embeddedFields = false) :
    (value : Document.Value) → value.isConstant = true →
    ∃ written, scope.term place value.withoutInfinities = .ok written ∧
      written.chars = (Term.ofJson value.toJson).chars
  | .reference _, constant => by cases constant
  | .null, _ => ⟨.null,rfl,rfl⟩
  | .bool value, _ => ⟨.bool value,rfl,rfl⟩
  | .int value, fits => by
    rw [isConstant] at fits
    exact ⟨.int value,rfl,by rw [toJson,Term.ofJson,Term.ofInteger,if_pos fits]⟩
  | .float value, _ => by
    rw [withoutInfinities,toJson]
    split
    · exact ⟨.float value,rfl,rfl⟩
    · exact ⟨.null,rfl,rfl⟩
  | .string value, _ => ⟨.string value,congrArg Except.ok (if_neg (by simp [plain])),rfl⟩
  | .enum name, bare => ⟨.enum name.text,rfl,(if_pos bare).symm⟩
  | .list items, constant => by
    obtain ⟨written,computed,same⟩ := exists_terms_of_itemsConstant plain items constant
    refine ⟨.list written,map_eq_ok_iff.mpr ⟨written,computed,rfl⟩,?_⟩
    rw [toJson,Term.ofJson,Term.chars,Term.chars,Term.listChars_eq_intercalate,
      Term.listChars_eq_intercalate,same]
  | .object members, constant => by
    obtain ⟨written,computed,same⟩ := exists_arguments_of_membersConstant plain members constant
    refine ⟨.object written,map_eq_ok_iff.mpr ⟨written,computed,rfl⟩,?_⟩
    rw [toJson,Term.ofJson,Term.chars,Term.chars,Term.memberChars_eq_intercalate,
      Term.memberChars_eq_intercalate,same]

private theorem exists_terms_of_itemsConstant (plain : scope.settings.embeddedFields = false) :
    (items : List Document.Value) → itemsConstant items = true →
    ∃ written, scope.terms place (itemsWithoutInfinities items) = .ok written ∧
      written.map Term.chars = (Term.ofItems (itemsToJson items)).map Term.chars
  | [], _ => ⟨[],rfl,rfl⟩
  | item :: items, constant => by
    rw [itemsConstant,Bool.and_eq_true] at constant
    obtain ⟨first,head,alike⟩ := exists_term_of_isConstant plain item constant.1
    obtain ⟨rest,tail,same⟩ := exists_terms_of_itemsConstant plain items constant.2
    refine ⟨first :: rest,terms_cons_ok_iff.mpr ⟨first,rest,head,tail,rfl⟩,?_⟩
    rw [itemsToJson,Term.ofItems,List.map_cons,List.map_cons,alike,same]

private theorem exists_arguments_of_membersConstant
    (plain : scope.settings.embeddedFields = false) :
    (members : Document.Arguments) → membersConstant members = true →
    ∃ written, scope.arguments place (membersWithoutInfinities members) = .ok written ∧
      written.map Term.memberText = (Term.ofMembers (membersToJson members)).map Term.memberText
  | [], _ => ⟨[],rfl,rfl⟩
  | (key,value) :: members, constant => by
    rw [membersConstant,Bool.and_eq_true] at constant
    obtain ⟨first,head,alike⟩ := exists_term_of_isConstant plain value constant.1
    obtain ⟨rest,tail,same⟩ := exists_arguments_of_membersConstant plain members constant.2
    refine ⟨(key.text,first) :: rest,arguments_cons_ok_iff.mpr ⟨first,rest,head,tail,rfl⟩,?_⟩
    rw [membersToJson,Term.ofMembers,List.map_cons,List.map_cons,same,Term.memberText,
      Term.memberText,alike]

end

end Literals

/-- A variable takes a default: its first declaration has it, and no value is submitted. -/
structure Defaults (scope : Scope) (name : String) (value : Document.Value) : Prop where
  declared : ∃ declaration, scope.operation.declarations.find? (·.name.text = name) = some declaration ∧
    declaration.default? = some value
  missing : Json.get? name scope.request.values = none

theorem variableTerm_of_defaults {scope : Scope} {name : String} {value : Document.Value}
    (defaults : scope.Defaults name value) (location : Location) :
    scope.request.variableTerm scope.operation name location = .ok (.ofJson value.toJson) := by
  obtain ⟨declaration,found,default⟩ := defaults.declared
  simp only [Request.variableTerm,found,defaults.missing,default]

/-- Without embedded fields, a variable that takes a constant as its default is written like that
constant in its place with null for each infinite float, so just like the constant itself if it has
none. The defaults that a document declares are such constants. -/
theorem default_written_like_literal :
    (∀ (scope : Scope) (name : String) (value : Document.Value) (location place : Location),
      scope.Defaults name value → value.isConstant = true → scope.settings.embeddedFields = false →
      ∃ bound written,
        scope.request.variableTerm scope.operation name location = .ok bound ∧
        scope.term place value.withoutInfinities = .ok written ∧ bound.text = written.text ∧
        (value.isFinite = true → scope.term place value = .ok written)) ∧
    ∀ text document, Document.parse text = .ok document →
      ∀ operation ∈ document.operations, ∀ declaration ∈ operation.declarations,
        ∀ value, declaration.default? = some value → value.isConstant = true := by
  constructor
  · intro scope name value location place defaults constant plain
    obtain ⟨written,computed,same⟩ := exists_term_of_isConstant place plain value constant
    refine ⟨_,written,variableTerm_of_defaults defaults location,computed,?_,?_⟩
    · rw [Term.text,Term.text,same]
    · intro finite
      rwa [Document.Value.withoutInfinities_of_isFinite value finite] at computed
  · intro text document parsed operation inside declaration present value default
    have constant := Document.constant_of_parse_ok parsed operation inside declaration present
    rwa [Document.Declaration.Constant,default] at constant

def paletteValue : Document.Value :=
  .object [(⟨"color",rfl⟩,.enum ⟨"RED",rfl⟩),(⟨"note",rfl⟩,.string "a b"),
    (⟨"scales",rfl⟩,.list [.float (.infinite true),.int (-2)])]

def paletteSample : Scope where
  settings := ⟨true,false,true⟩
  request := ⟨[],[],[("other",.integer 1)]⟩
  operation :=
    { name? := none
      kind := .query
      location := .start
      declarations := [⟨⟨"palette",rfl⟩,.named ⟨"Palette",rfl⟩,some paletteValue⟩,
        ⟨⟨"palette",rfl⟩,.named ⟨"Palette",rfl⟩,none⟩]
      selections := .single (.leaf ⟨.start,none,⟨"paint",rfl⟩,
        [(⟨"with",rfl⟩,.reference ⟨"palette",rfl⟩)],[]⟩) }

theorem paletteSample_written : ∃ bound written,
    paletteSample.request.variableTerm paletteSample.operation "palette" .start = .ok bound ∧
    paletteSample.term .start paletteValue.withoutInfinities = .ok written ∧
    bound.text = "\x7bcolor:RED,note:\"a b\",scales:[null,-2]\x7d" ∧ written.text = bound.text := by
  have defaults : paletteSample.Defaults "palette" paletteValue := ⟨⟨_,rfl,rfl⟩,rfl⟩
  obtain ⟨bound,written,resolved,computed,same,_⟩ := default_written_like_literal.1 paletteSample
    "palette" paletteValue .start .start defaults (by decide) rfl
  refine ⟨bound,written,resolved,computed,?_,same.symm⟩
  rw [variableTerm_of_defaults defaults] at resolved
  cases resolved
  decide +kernel

end Scope

end FlatQuery
