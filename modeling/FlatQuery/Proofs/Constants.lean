import FlatQuery.Proofs.Conversion
import FlatQuery.Text.Quoted

/-! Constants: values without variables whose integers have 64 bits and whose enumeration values are
no keywords. The scanner keeps integers in these bounds and the grammar keeps variables out of
defaults, so every default that a document declares is a constant. -/

namespace FlatQuery.Document

namespace Value

mutual

def isConstant : Value → Bool
  | .reference _ => false
  | .null | .bool _ | .float _ | .string _ => true
  | .int value => Decimal.fitsSigned value
  | .enum name => Text.isBareWord name.text.toList
  | .list items => itemsConstant items
  | .object members => membersConstant members

def itemsConstant : List Value → Bool
  | [] => true
  | item :: items => item.isConstant && itemsConstant items

def membersConstant : List (Name × Value) → Bool
  | [] => true
  | (_,value) :: members => value.isConstant && membersConstant members

end

private theorem isConstant_ofWord (name : Name) : (ofWord name).isConstant = true := by
  have apart {word : String} (other : ¬ name.text = word) : ¬ name.text.toList = word.toList :=
    fun same => other (String.toList_inj.mp same)
  unfold ofWord
  split
  · rfl
  next notTrue =>
    split
    · rfl
    next notFalse =>
      split
      · rfl
      next notNull =>
        simpa [isConstant,Text.isBareWord,Text.keywords,name.valid] using
          And.intro (apart notTrue) ⟨apart notFalse,apart notNull⟩

private theorem membersConstant_insert {key : Name} {value : Value} {members : List (Name × Value)}
    (constant : value.isConstant = true) (others : membersConstant members = true) :
    membersConstant (insert key value members) = true := by
  fun_induction insert key value members with
  | case1 => simp [membersConstant,constant]
  | case2 => simp_all [membersConstant]
  | case3 => simp_all [membersConstant]
  | case4 => simp_all [membersConstant]

private theorem isConstant_ofMembers {members : List (Name × Value)}
    (constant : membersConstant members = true) : (ofMembers members).isConstant = true := by
  have folded (sorted : List (Name × Value)) (before : membersConstant sorted = true) :
      membersConstant (members.foldl (fun sorted member => insert member.1 member.2 sorted) sorted) =
        true := by
    induction members generalizing sorted with
    | nil => exact before
    | cons member members ih =>
      rw [membersConstant,Bool.and_eq_true] at constant
      exact ih constant.2 _ (membersConstant_insert constant.1 before)
  exact folded [] rfl

end Value

def Token.isSized : Token → Bool
  | .int value => Decimal.fitsSigned value
  | .mark _ | .name _ | .float _ | .string _ | .torn => true

private theorem Token.isSized_of_number? {cs : List Char} {token : Token}
    (found : number? cs = some token) : token.isSized = true := by
  obtain ⟨numeral,_,decided⟩ := Option.bind_eq_some_iff.mp found
  split at decided
  · split at decided
    next fits =>
      cases decided
      exact fits
    · cases decided
  · split at decided
    · cases decided
      rfl
    · cases decided

private theorem Token.isSized_ofBlock (content : List Char) : (ofBlock content).isSized = true := by
  unfold ofBlock
  split
  · rfl
  · rfl

private theorem Token.isSized_of_read? {cs : List Char} {r : Read Char Token cs.tail}
    (found : read? cs = some r) : r.value.isSized = true := by
  unfold read? at found
  split at found
  · cases found
  · cases found
    rfl
  · obtain ⟨block,_,rfl⟩ := Option.map_eq_some_iff.mp found
    exact isSized_ofBlock block.value
  · obtain ⟨text,_,rfl⟩ := Option.map_eq_some_iff.mp found
    rfl
  · split at found
    · cases found
      rfl
    · split at found
      · obtain ⟨token,number,rfl⟩ := Option.map_eq_some_iff.mp found
        exact isSized_of_number? number
      · obtain ⟨name,_,rfl⟩ := Option.map_eq_some_iff.mp found
        rfl

def Sized (lexemes : List Lexeme) : Prop := ∀ lexeme ∈ lexemes, lexeme.token.isSized = true

theorem Sized.suffix {first second : List Lexeme} (sized : Sized second) (part : first <:+ second) :
    Sized first :=
  fun lexeme inside => sized lexeme (part.subset inside)

private theorem Lexemes.sized_scan (place : Location) (opened : Nat) (cs : List Char) :
    Sized (scan place opened cs).list := by
  fun_induction scan place opened cs with
  | case1 | case3 | case5 | case6 => simp [Sized]
  | case2 place opened c cs next ignored ih => exact ih
  | case4 place opened cs ignored r comment ih => exact ih
  | case7 place opened c cs ignored plain r found now room more ih =>
    exact List.forall_mem_cons.mpr ⟨Token.isSized_of_read? found,ih⟩

namespace Grammar

mutual

theorem isConstant_of_value_ok {lexemes : List Lexeme} (sized : Sized lexemes)
    {r : Read Lexeme Value lexemes.tail}
    (ok : value false lexemes = .ok r) : r.value.isConstant = true := by
  match lexemes with
  | [] =>
    rw [value] at ok
    cases ok
  | lexeme :: rest =>
    rw [value] at ok
    have own := sized lexeme (by simp)
    have later : Sized rest := sized.suffix (List.suffix_cons lexeme rest)
    split at ok
    · cases ok
      exact Value.isConstant_ofWord _
    next token =>
      cases ok
      rw [token] at own
      exact own
    · cases ok
      rfl
    · cases ok
      rfl
    · cases ok
    · cases ok
    · obtain ⟨inner,read,done⟩ := bind_eq_ok_iff.mp ok
      cases done
      exact itemsConstant_of_items_ok later read
    · obtain ⟨inner,read,done⟩ := bind_eq_ok_iff.mp ok
      cases done
      exact Value.isConstant_ofMembers (membersConstant_of_members_ok later read)
    · cases ok
termination_by 2 * lexemes.length

private theorem itemsConstant_of_items_ok {lexemes : List Lexeme} (sized : Sized lexemes)
    {r : Read Lexeme (List Value) lexemes.tail}
    (ok : items false lexemes = .ok r) : Value.itemsConstant r.value = true := by
  match lexemes with
  | [] =>
    rw [items] at ok
    cases ok
  | lexeme :: rest =>
    rw [items] at ok
    split at ok
    · cases ok
      rfl
    · obtain ⟨item,first,remaining⟩ := bind_eq_ok_iff.mp ok
      obtain ⟨more,read,done⟩ := bind_eq_ok_iff.mp remaining
      cases done
      have shorter : item.rest.length ≤ rest.length := item.length_le
      have here := isConstant_of_value_ok sized first
      have later := itemsConstant_of_items_ok
        (sized.suffix (item.suffix.trans (List.suffix_cons lexeme rest))) read
      exact Bool.and_eq_true_iff.mpr ⟨here,later⟩
termination_by 2 * lexemes.length + 1

private theorem membersConstant_of_members_ok {lexemes : List Lexeme} (sized : Sized lexemes)
    {r : Read Lexeme Arguments lexemes.tail}
    (ok : members false lexemes = .ok r) : Value.membersConstant r.value = true := by
  match lexemes with
  | [] =>
    rw [members] at ok
    cases ok
  | lexeme :: rest =>
    rw [members] at ok
    split at ok
    · cases ok
      rfl
    · obtain ⟨key,_,afterKey⟩ := bind_eq_ok_iff.mp ok
      obtain ⟨colon,_,afterColon⟩ := bind_eq_ok_iff.mp afterKey
      obtain ⟨item,first,remaining⟩ := bind_eq_ok_iff.mp afterColon
      obtain ⟨more,read,done⟩ := bind_eq_ok_iff.mp remaining
      cases done
      have keyShorter : key.rest.length ≤ rest.length := key.length_le
      have colonShorter := colon.within_length_le
      have itemShorter := item.within_length_le
      have behindKey : Sized key.rest := sized.suffix (key.suffix.trans (List.suffix_cons lexeme rest))
      have behindColon : Sized colon.rest := behindKey.suffix colon.within.suffix
      have here := isConstant_of_value_ok behindColon first
      have later := membersConstant_of_members_ok (behindColon.suffix item.within.suffix) read
      exact Bool.and_eq_true_iff.mpr ⟨here,later⟩
termination_by 2 * lexemes.length + 1

end

variable {lexemes : List Lexeme}

private theorem isConstant_of_default?_ok (sized : Sized lexemes)
    {r : Read Lexeme (Option Value) lexemes}
    (ok : default? lexemes = .ok r) : r.value.all Value.isConstant = true := by
  unfold default? at ok
  split at ok
  next equals _ =>
    obtain ⟨constant,read,done⟩ := bind_eq_ok_iff.mp ok
    cases done
    exact isConstant_of_value_ok (sized.suffix equals.within.suffix) read
  · cases ok
    rfl

end Grammar

/-- The default of a declaration, if it has one, is a constant. -/
def Declaration.Constant (declaration : Declaration) : Prop :=
  declaration.default?.all Value.isConstant = true

namespace Grammar

variable {lexemes : List Lexeme}

private theorem constant_of_declaration_ok (sized : Sized lexemes)
    {r : Read Lexeme Declaration lexemes.tail}
    (ok : declaration lexemes = .ok r) : r.value.Constant := by
  simp only [declaration,bind_eq_ok_iff,pure_eq_ok_iff] at ok
  obtain ⟨dollar,_,label,_,colon,_,declared,_,initial,read,rfl⟩ := ok
  have behind : declared.rest <:+ lexemes :=
    (dollar.within.after (label.within.after (colon.within.after declared.within))).suffix
  exact isConstant_of_default?_ok (sized.suffix behind) read

private theorem constant_of_declarationList_ok (sized : Sized lexemes)
    {r : Read Lexeme (List Declaration) lexemes.tail} (ok : declarationList lexemes = .ok r) :
    ∀ declaration ∈ r.value, declaration.Constant := by
  fun_induction declarationList lexemes with
  | case1 => cases ok
  | case2 lexeme rest ih =>
    obtain ⟨first,computed,remaining⟩ := bind_eq_ok_iff.mp ok
    have here := constant_of_declaration_ok sized computed
    split at remaining
    · cases remaining
      exact List.forall_mem_singleton.mpr here
    · obtain ⟨more,read,done⟩ := bind_eq_ok_iff.mp remaining
      cases done
      have later := ih first (sized.suffix first.within.suffix) read
      exact List.forall_mem_cons.mpr ⟨here,later⟩

private theorem constant_of_declarations_ok (sized : Sized lexemes)
    {r : Read Lexeme (List Declaration) lexemes} (ok : declarations lexemes = .ok r) :
    ∀ declaration ∈ r.value, declaration.Constant := by
  unfold declarations at ok
  split at ok
  next opened _ =>
    obtain ⟨list,read,done⟩ := bind_eq_ok_iff.mp ok
    cases done
    exact constant_of_declarationList_ok (sized.suffix opened.within.suffix) read
  · cases ok
    simp [Read.nothing]

end Grammar

def Operation.Constant (operation : Operation) : Prop :=
  ∀ declaration ∈ operation.declarations, declaration.Constant

namespace Grammar

variable {lexemes : List Lexeme}

private theorem constant_of_operation_ok (sized : Sized lexemes) {kind : Kind} {location : Location}
    {r : Read Lexeme Operation lexemes} (ok : operation kind location lexemes = .ok r) :
    r.value.Constant := by
  simp only [operation,bind_eq_ok_iff,pure_eq_ok_iff] at ok
  obtain ⟨declared,read,applied,_,body,_,rfl⟩ := ok
  exact constant_of_declarations_ok (sized.suffix (operationName lexemes).suffix) read

private theorem constant_of_definition_ok (sized : Sized lexemes)
    {r : Read Lexeme Definition lexemes.tail}
    {value : Operation} (ok : definition lexemes = .ok r) (found : r.value = .operation value) :
    value.Constant := by
  unfold definition at ok
  split at ok
  · cases ok
  next lexeme rest =>
    split at ok
    · obtain ⟨body,_,done⟩ := bind_eq_ok_iff.mp ok
      cases done
      cases found
      simp [Operation.Constant]
    · split at ok
      · obtain ⟨inner,computed,done⟩ := bind_eq_ok_iff.mp ok
        cases done
        cases found
        exact constant_of_operation_ok (sized.suffix (List.suffix_cons lexeme rest)) computed
      · split at ok
        · obtain ⟨inner,_,done⟩ := bind_eq_ok_iff.mp ok
          cases done
          cases found
        · cases ok
    · cases ok

private theorem constant_cons {head : Definition} {more : List Definition}
    (here : ∀ operation, head = .operation operation → operation.Constant)
    (later : ∀ operation ∈ (Document.mk more).operations, operation.Constant) :
    ∀ operation ∈ (Document.mk (head :: more)).operations, operation.Constant := by
  cases head with
  | fragment value => exact later
  | operation value => exact List.forall_mem_cons.mpr ⟨here value rfl,later⟩

private theorem constant_of_definitions_ok (sized : Sized lexemes) {found : List Definition}
    (ok : definitions lexemes = .ok found) :
    ∀ operation ∈ (Document.mk found).operations, operation.Constant := by
  fun_induction definitions lexemes generalizing found with
  | case1 => cases ok
  | case2 lexeme rest ih =>
    obtain ⟨head,computed,remaining⟩ := bind_eq_ok_iff.mp ok
    have here (operation : Operation) (value : head.value = .operation operation) :
        operation.Constant := constant_of_definition_ok sized computed value
    split at remaining
    · cases remaining
      exact constant_cons here (by simp [Document.operations])
    · obtain ⟨more,read,joined⟩ := bind_eq_ok_iff.mp remaining
      cases joined
      exact constant_cons here (ih head (sized.suffix head.within.suffix) read)

end Grammar

/-- Every default that a document declares is a constant. -/
theorem constant_of_parse_ok {text : String} {document : Document}
    (parsed : Document.parse text = .ok document) :
    ∀ operation ∈ document.operations, operation.Constant := by
  rw [Document.parse,Document.ofLexemes] at parsed
  split at parsed
  · cases parsed
  next definitions read =>
    split at parsed
    · cases parsed
      exact Grammar.constant_of_definitions_ok (Lexemes.sized_scan .start 0 text.toList) read
    · cases parsed

end FlatQuery.Document
