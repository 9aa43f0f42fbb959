import FlatQuery.Term
import FlatQuery.Text.Name

/-! Field calls embedded in string literals. A name between double braces is a call of that
field, and a literal with calls becomes a format with placeholders. -/

namespace FlatQuery.Embedding

inductive Piece where
  | char (value : Char)
  | reference (name : Name)

def reference? : (cs : List Char) → Option (Read Char Name cs.tail)
  | '{' :: '{' :: cs =>
    match Name.read? cs with
    | some name =>
      match Read.exactly? '}' name.rest with
      | some first =>
        match Read.exactly? '}' first.rest with
        | some second =>
          some ((name.within.after (first.within.after (second.within.map fun _ => name.value))).behind ['{'])
        | none => none
      | none => none
    | none => none
  | _ => none

/-- The references of a text from left to right and the characters between them. -/
def pieces (cs : List Char) : List Piece :=
  match cs with
  | [] => []
  | c :: cs =>
    match reference? (c :: cs) with
    | some r =>
      have : r.rest.length ≤ cs.length := r.length_le
      .reference r.value :: pieces r.rest
    | none => .char c :: pieces cs
termination_by cs.length

def Piece.format : Piece → List Char
  | char value => if value = '%' then ['%', '%'] else [value]
  | reference _ => ['%', 's']

def Piece.name? : Piece → Option Name
  | char _ => none
  | reference name => some name

def term (literal : String) : Term :=
  let all := pieces literal.toList
  match all.filterMap Piece.name? with
  | [] => .string literal
  | names =>
    .call (.applied "sprintf" [("string", .string (String.ofList (all.flatMap Piece.format))),
      ("values", .list (names.map fun name => .call (.plain name.text)))])

end FlatQuery.Embedding
