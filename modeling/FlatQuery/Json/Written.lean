import FlatQuery.Json.Basic
import FlatQuery.Json.Token

/-! JSON as it is written: members in order with repetitions, numbers and strings not yet
decoded. Decoding a part can fail although the text is well formed. -/

namespace FlatQuery.Json

inductive Written where
  | scalar (value : Scalar)
  | array (items : List Written)
  | object (members : List (List Piece × Written))

namespace Written

mutual

def read? (ts : List Token) : Option (Read Token Written ts.tail) :=
  match ts with
  | [] => none
  | .scalar s :: ts => some (.one (scalar s) (.scalar s) ts)
  | .mark .openBracket :: ts =>
    match Read.exactly? (.mark .closeBracket) ts with
    | some close => some (close.within.map fun _ => array [])
    | none => (readItems? ts).map fun r => r.within.map array
  | .mark .openBrace :: ts =>
    match Read.exactly? (.mark .closeBrace) ts with
    | some close => some (close.within.map fun _ => object [])
    | none => (readMembers? ts).map fun r => r.within.map object
  | .mark _ :: _ => none
termination_by 2 * ts.length

def readItems? (ts : List Token) : Option (Read Token (List Written) ts.tail) :=
  match ts with
  | [] => none
  | t :: ts => do
    let item ← read? (t :: ts)
    match Read.exactly? (.mark .comma) item.rest with
    | some comma =>
      have : item.rest.length ≤ ts.length := item.length_le
      have := comma.within_length_le
      let items ← readItems? comma.rest
      return item.after (comma.within.after (items.within.map (item.value :: ·)))
    | none =>
      let close ← Read.exactly? (.mark .closeBracket) item.rest
      return item.after (close.within.map fun _ => [item.value])
termination_by 2 * ts.length + 1

def readMembers? (ts : List Token) : Option (Read Token (List (List Piece × Written)) ts.tail) :=
  match ts with
  | .scalar (.string key) :: ts => do
    let colon ← Read.exactly? (.mark .colon) ts
    have := colon.within_length_le
    let value ← read? colon.rest
    have := value.within_length_le
    match Read.exactly? (.mark .comma) value.rest with
    | some comma =>
      have := comma.within_length_le
      let members ← readMembers? comma.rest
      return colon.within.after (value.within.after (comma.within.after
        (members.within.map ((key, value.value) :: ·))))
    | none =>
      let close ← Read.exactly? (.mark .closeBrace) value.rest
      return colon.within.after (value.within.after (close.within.map fun _ => [(key, value.value)]))
  | _ => none
termination_by 2 * ts.length + 1

end

def ofChars? (cs : List Char) : Option Written := do
  let ts ← Token.ofChars? cs
  let r ← read? ts
  if r.rest.isEmpty then some r.value else none

end Written

def Piece.decode? : List Piece → Option (List Char)
  | [] => some []
  | .char c :: ps => (decode? ps).map (c :: ·)
  | .unit u :: ps =>
    if 0xd800 ≤ u ∧ u < 0xdc00 then
      match ps with
      | .unit v :: ps =>
        if 0xdc00 ≤ v ∧ v < 0xe000 then
          (decode? ps).map (Char.ofNat (0x10000 + 0x400 * (u - 0xd800) + (v - 0xdc00)) :: ·)
        else none
      | _ => none
    else if 0xdc00 ≤ u ∧ u < 0xe000 then none
    else (decode? ps).map (Char.ofNat u :: ·)

def Piece.text? (ps : List Piece) : Option String := (decode? ps).map String.ofList

/-- An integer if the number is written as one and fits 64 bits, with or without a sign;
otherwise the nearest double, unless the number is beyond all of them. -/
def number? (n : Decimal.Numeral) : Option Json :=
  let whole := n.toInt
  if n.isWhole && !(n.negative && whole == 0) &&
      (Decimal.fitsSigned whole || (!n.negative && Decimal.fitsUnsigned whole.natAbs)) then
    some (.integer whole)
  else if n.toDouble.isFinite then some (.real n.toDouble)
  else none

def Scalar.value? : Scalar → Option Json
  | null => some .null
  | bool value => some (.bool value)
  | number value => number? value
  | string pieces => (Piece.text? pieces).map .string

namespace Written

mutual

/-- The value that is written, if arrays and objects nest at most `levels` deep. -/
def value? (levels : Nat) : Written → Option Json
  | scalar s => s.value?
  | array items => if levels = 0 then none else (itemValues? (levels - 1) items).map .array
  | object members => if levels = 0 then none else (memberValues? (levels - 1) [] members).map .object

def itemValues? (levels : Nat) : List Written → Option (List Json)
  | [] => some []
  | item :: items => do
    let first ← value? levels item
    let rest ← itemValues? levels items
    return first :: rest

def memberValues? (levels : Nat) (seen : List (String × Json)) :
    List (List Piece × Written) → Option (List (String × Json))
  | [] => some seen
  | (key, value) :: members => do
    let key ← Piece.text? key
    let value ← value? levels value
    memberValues? levels (set key value seen) members

end

def members? : Written → Option (List (String × Written))
  | object members => members.mapM fun member => (Piece.text? member.1).map fun key => (key, member.2)
  | _ => none

def single? (key : String) (members : List (String × Written)) : Option (Option Written) :=
  match members.filter fun member => member.1 == key with
  | [] => some none
  | [member] => some (some member.2)
  | _ => none

end Written

def nestingLimit : Nat := 127

def ofChars? (cs : List Char) : Option Json := (Written.ofChars? cs).bind (Written.value? nestingLimit)

def parse? (text : String) : Option Json := ofChars? text.toList

end FlatQuery.Json
