import FlatQuery.Document.Basic
import FlatQuery.Document.Lexeme

/-! The grammar of GraphQL documents that run. Each reader takes lexemes from the front and fails at the first
lexeme that cannot go on. -/

namespace FlatQuery.Document

/-- Why reading stopped: a lexeme that does not fit, no more lexemes, or a torn block string
where a value stands. -/
inductive Fault where
  | unexpected (location : Location)
  | ended
  | torn
deriving DecidableEq

namespace Grammar

def unexpected : List Lexeme → Fault
  | [] => .ended
  | t :: _ => .unexpected t.location

def mark? (m : Mark) : (ts : List Lexeme) → Option (Read Lexeme Unit ts.tail)
  | [] => none
  | t :: ts => if t.token = .mark m then some (.one () t ts) else none

def mark (m : Mark) (ts : List Lexeme) : Except Fault (Read Lexeme Unit ts.tail) :=
  match mark? m ts with
  | some r => .ok r
  | none => .error (unexpected ts)

def name? : (ts : List Lexeme) → Option (Read Lexeme Name ts.tail)
  | [] => none
  | t :: ts =>
    match t.token with
    | .name n => some (.one n t ts)
    | _ => none

def name (ts : List Lexeme) : Except Fault (Read Lexeme Name ts.tail) :=
  match name? ts with
  | some r => .ok r
  | none => .error (unexpected ts)

def word? (text : String) (ts : List Lexeme) : Option (Read Lexeme Name ts.tail) :=
  (name? ts).filter fun r => r.value.text = text

def word (text : String) (ts : List Lexeme) : Except Fault (Read Lexeme Name ts.tail) :=
  match word? text ts with
  | some r => .ok r
  | none => .error (unexpected ts)

mutual

/-- A value; variables stand only in a `dynamic` one. -/
def value (dynamic : Bool) (ts : List Lexeme) : Except Fault (Read Lexeme Value ts.tail) :=
  match ts with
  | [] => .error .ended
  | t :: ts =>
    match t.token with
    | .name n => .ok (.one (Value.ofWord n) t ts)
    | .int n => .ok (.one (.int n) t ts)
    | .float x => .ok (.one (.float x) t ts)
    | .string s => .ok (.one (.string s) t ts)
    | .torn => .error .torn
    | .mark .dollar =>
      if dynamic then do
        let n ← name ts
        return n.within.map .reference
      else .error (.unexpected t.location)
    | .mark .openBracket => do
      let r ← items dynamic ts
      return r.within.map .list
    | .mark .openBrace => do
      let r ← members dynamic ts
      return r.within.map .ofMembers
    | .mark _ => .error (.unexpected t.location)
termination_by 2 * ts.length

def items (dynamic : Bool) (ts : List Lexeme) : Except Fault (Read Lexeme (List Value) ts.tail) :=
  match ts with
  | [] => .error .ended
  | t :: ts =>
    if t.token = .mark .closeBracket then .ok (.one [] t ts)
    else do
      let item ← value dynamic (t :: ts)
      have : item.rest.length ≤ ts.length := item.length_le
      let more ← items dynamic item.rest
      return item.after (more.within.map (item.value :: ·))
termination_by 2 * ts.length + 1

def members (dynamic : Bool) (ts : List Lexeme) : Except Fault (Read Lexeme Arguments ts.tail) :=
  match ts with
  | [] => .error .ended
  | t :: ts =>
    if t.token = .mark .closeBrace then .ok (.one [] t ts)
    else do
      let key ← name (t :: ts)
      have : key.rest.length ≤ ts.length := key.length_le
      let colon ← mark .colon key.rest
      have := colon.within_length_le
      let item ← value dynamic colon.rest
      have := item.within_length_le
      let more ← members dynamic item.rest
      return key.after (colon.within.after (item.within.after (more.within.map ((key.value, item.value) :: ·))))
termination_by 2 * ts.length + 1

end

def argument (ts : List Lexeme) : Except Fault (Read Lexeme (Name × Value) ts.tail) := do
  let key ← name ts
  let colon ← mark .colon key.rest
  let item ← value true colon.rest
  return key.after (colon.within.after (item.within.map (key.value, ·)))

def argumentList (ts : List Lexeme) : Except Fault (Read Lexeme Arguments ts.tail) :=
  match ts with
  | [] => .error .ended
  | t :: ts => do
    let first ← argument (t :: ts)
    have : first.rest.length ≤ ts.length := first.length_le
    match mark? .closeParen first.rest with
    | some close => return first.after (close.within.map fun _ => [first.value])
    | none =>
      let more ← argumentList first.rest
      return first.after (more.within.map (first.value :: ·))
termination_by ts.length

def arguments (ts : List Lexeme) : Except Fault (Read Lexeme Arguments ts) :=
  match mark? .openParen ts with
  | some opened => do
    let list ← argumentList opened.rest
    return opened.within.after list.within
  | none => .ok (.nothing [] ts)

def directives (ts : List Lexeme) : Except Fault (Read Lexeme (List Directive) ts) :=
  match ts with
  | [] => .ok (.nothing [] [])
  | t :: ts =>
    if t.token = .mark .atSign then do
      let label ← name ts
      have := label.within_length_le
      let list ← arguments label.rest
      have := list.length_le
      let more ← directives list.rest
      return (label.within.after (list.after (more.map (⟨label.value, list.value, t.location⟩ :: ·)))).behind [t]
    else .ok (.nothing [] (t :: ts))
termination_by ts.length

def fieldName (ts : List Lexeme) : Except Fault (Read Lexeme (Option Name × Name) ts.tail) := do
  let first ← name ts
  match mark? .colon first.rest with
  | some colon =>
    let second ← name colon.rest
    return first.after (colon.within.after (second.within.map (some first.value, ·)))
  | none => return first.map (none, ·)

def field : (ts : List Lexeme) → Except Fault (Read Lexeme Field ts.tail)
  | [] => .error .ended
  | t :: ts => do
    let label ← fieldName (t :: ts)
    let list ← arguments label.rest
    let applied ← directives list.rest
    return label.after (list.after (applied.map fun ds =>
      ⟨t.location, label.value.1, label.value.2, list.value, ds⟩))

def condition (ts : List Lexeme) : Except Fault (Read Lexeme (Option Name) ts) :=
  match word? "on" ts with
  | some on => do
    let type ← name on.rest
    return on.within.after (type.within.map some)
  | none => .ok (.nothing none ts)

def spreadName? : (ts : List Lexeme) → Option (Read Lexeme (Name × Location) ts.tail)
  | [] => none
  | t :: ts =>
    match t.token with
    | .name n => if n.text = "on" then none else some (.one (n, t.location) t ts)
    | _ => none

mutual

def selection (ts : List Lexeme) : Except Fault (Read Lexeme Selection ts.tail) :=
  match ts with
  | [] => .error .ended
  | t :: ts =>
    if t.token = .mark .ellipsis then
      match spreadName? ts with
      | some target => do
        let applied ← directives target.rest
        return target.within.after (applied.map (.spread target.value.1 target.value.2))
      | none => do
        let type ← condition ts
        have := type.length_le
        let applied ← directives type.rest
        have := applied.length_le
        let opened ← mark .openBrace applied.rest
        have := opened.within_length_le
        let body ← selections opened.rest
        return type.after (applied.after (opened.within.after (body.within.map (.inline type.value applied.value))))
    else do
      let f ← field (t :: ts)
      have : f.rest.length ≤ ts.length := f.length_le
      match mark? .openBrace f.rest with
      | some opened =>
        have := opened.within_length_le
        let body ← selections opened.rest
        return f.after (opened.within.after (body.within.map (.branch f.value)))
      | none => return f.map .leaf
termination_by 2 * ts.length

def selections (ts : List Lexeme) : Except Fault (Read Lexeme SelectionSet ts.tail) :=
  match ts with
  | [] => .error .ended
  | t :: ts => do
    let first ← selection (t :: ts)
    have : first.rest.length ≤ ts.length := first.length_le
    match mark? .closeBrace first.rest with
    | some close => return first.after (close.within.map fun _ => .single first.value)
    | none =>
      let more ← selections first.rest
      return first.after (more.within.map (.cons first.value))
termination_by 2 * ts.length + 1

end

def selectionSet (ts : List Lexeme) : Except Fault (Read Lexeme SelectionSet ts.tail) := do
  let opened ← mark .openBrace ts
  let body ← selections opened.rest
  return opened.after body.within

def type (ts : List Lexeme) : Except Fault (Read Lexeme TypeRef ts.tail) :=
  match ts with
  | [] => .error .ended
  | t :: ts => do
    let inner : Read Lexeme TypeRef ts ←
      match t.token with
      | .name n => pure (.nothing (.named n) ts)
      | .mark .openBracket => do
        let item ← type ts
        let close ← mark .closeBracket item.rest
        pure (item.within.after (close.within.map fun _ => .list item.value))
      | _ => throw (.unexpected t.location)
    match mark? .bang inner.rest with
    | some bang => return inner.after (bang.within.map fun _ => .nonNull inner.value)
    | none => return inner
termination_by ts.length

def default? (ts : List Lexeme) : Except Fault (Read Lexeme (Option Value) ts) :=
  match mark? .equals ts with
  | some equals => do
    let constant ← value false equals.rest
    return equals.within.after (constant.within.map some)
  | none => .ok (.nothing none ts)

def declaration (ts : List Lexeme) : Except Fault (Read Lexeme Declaration ts.tail) := do
  let dollar ← mark .dollar ts
  let label ← name dollar.rest
  let colon ← mark .colon label.rest
  let declared ← type colon.rest
  let initial ← default? declared.rest
  return dollar.after (label.within.after (colon.within.after (declared.within.after
    (initial.map fun value => ⟨label.value, declared.value, value⟩))))

def declarationList (ts : List Lexeme) : Except Fault (Read Lexeme (List Declaration) ts.tail) :=
  match ts with
  | [] => .error .ended
  | t :: ts => do
    let first ← declaration (t :: ts)
    have : first.rest.length ≤ ts.length := first.length_le
    match mark? .closeParen first.rest with
    | some close => return first.after (close.within.map fun _ => [first.value])
    | none =>
      let more ← declarationList first.rest
      return first.after (more.within.map (first.value :: ·))
termination_by ts.length

def declarations (ts : List Lexeme) : Except Fault (Read Lexeme (List Declaration) ts) :=
  match mark? .openParen ts with
  | some opened => do
    let list ← declarationList opened.rest
    return opened.within.after list.within
  | none => .ok (.nothing [] ts)

def operationName (ts : List Lexeme) : Read Lexeme (Option Name) ts :=
  match name? ts with
  | some r => r.within.map some
  | none => .nothing none ts

/-- An operation from after its keyword. The directives on an operation are not kept. -/
def operation (kind : Kind) (location : Location) (ts : List Lexeme) :
    Except Fault (Read Lexeme Operation ts) := do
  let label := operationName ts
  let declared ← declarations label.rest
  let applied ← directives declared.rest
  let body ← selectionSet applied.rest
  return label.after (declared.after (applied.after (body.within.map fun set =>
    ⟨label.value, kind, location, declared.value, set⟩)))

def fragment (ts : List Lexeme) : Except Fault (Read Lexeme Fragment ts) := do
  let label ← name ts
  let on ← word "on" label.rest
  let type ← name on.rest
  let applied ← directives type.rest
  let body ← selectionSet applied.rest
  return label.within.after (on.within.after (type.within.after (applied.after
    (body.within.map fun set => ⟨label.value, type.value, set⟩))))

def kind? (text : String) : Option Kind :=
  if text = "query" then some .query
  else if text = "mutation" then some .mutation
  else if text = "subscription" then some .subscription
  else none

def definition : (ts : List Lexeme) → Except Fault (Read Lexeme Definition ts.tail)
  | [] => .error .ended
  | t :: ts =>
    match t.token with
    | .mark .openBrace => do
      let body ← selections ts
      return body.within.map fun set => .operation ⟨none, .query, t.location, [], set⟩
    | .name n =>
      match kind? n.text with
      | some kind => do
        let r ← operation kind t.location ts
        return r.map .operation
      | none =>
        if n.text = "fragment" then do
          let r ← fragment ts
          return r.map .fragment
        else .error (.unexpected t.location)
    | _ => .error (.unexpected t.location)

def definitions (ts : List Lexeme) : Except Fault (List Definition) :=
  match ts with
  | [] => .error .ended
  | t :: ts => do
    let first ← definition (t :: ts)
    have : first.rest.length ≤ ts.length := first.length_le
    if first.rest.isEmpty then return [first.value]
    else
      let more ← definitions first.rest
      return first.value :: more
termination_by ts.length

end Grammar

/-- Why a text is no document: something at a place does not fit, of which the details say more, or a
block string is torn. -/
inductive Refusal where
  | malformed (location : Location) (details : String)
  | torn
deriving DecidableEq

/-- Lexemes that run out point to where the text ends or stops making sense. What was found and what
was expected at a place is left out of the details. -/
def Fault.refusal (finish : Location) : Fault → Refusal
  | unexpected location => .malformed location ""
  | ended => .malformed finish ""
  | torn => .torn

end FlatQuery.Document

namespace FlatQuery

def Document.ofLexemes (lexemes : Document.Lexemes) : Except Document.Refusal Document :=
  match Document.Grammar.definitions lexemes.list with
  | .error fault => .error (fault.refusal lexemes.finish)
  | .ok definitions =>
    if lexemes.complete then .ok ⟨definitions⟩ else .error (.malformed lexemes.finish "")

def Document.parse (text : String) : Except Document.Refusal Document :=
  Document.ofLexemes (.ofText text)

abbrev Document.Parser := String → Except Document.Refusal Document

end FlatQuery
