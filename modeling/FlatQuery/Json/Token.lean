import FlatQuery.Decimal.Numeral
import FlatQuery.Text.Hex

/-! The tokens of JSON text. Strings are kept as characters and escaped 16-bit units,
because a text may be well written and still hold half of a surrogate pair. -/

namespace FlatQuery.Json

inductive Mark where
  | openBracket | closeBracket | openBrace | closeBrace | colon | comma
deriving DecidableEq

/-- A character of a string, or a unit written as four hexadecimal digits. -/
inductive Piece where
  | char (value : Char)
  | unit (value : Nat)
deriving DecidableEq

inductive Scalar where
  | null
  | bool (value : Bool)
  | number (value : Decimal.Numeral)
  | string (pieces : List Piece)
deriving DecidableEq

inductive Token where
  | mark (value : Mark)
  | scalar (value : Scalar)
deriving DecidableEq

namespace Piece

def escape? : Char → Option Char
  | '"' => some '"'
  | '\\' => some '\\'
  | '/' => some '/'
  | 'b' => some '\x08'
  | 'f' => some '\x0c'
  | 'n' => some '\n'
  | 'r' => some '\r'
  | 't' => some '\t'
  | _ => none

def read? : (cs : List Char) → Option (Read Char (List Piece) cs)
  | [] => none
  | '"' :: cs => some ((Read.nothing [] cs).behind ['"'])
  | '\\' :: 'u' :: a :: b :: c :: d :: cs =>
    match Text.hexValue? [a, b, c, d], read? cs with
    | some value, some r => some ((r.map (unit value :: ·)).behind ['\\', 'u', a, b, c, d])
    | _, _ => none
  | '\\' :: c :: cs =>
    match escape? c, read? cs with
    | some value, some r => some ((r.map (char value :: ·)).behind ['\\', c])
    | _, _ => none
  | c :: cs =>
    if c.toNat < 0x20 ∨ c = '\\' then none else (read? cs).map fun r => (r.map (char c :: ·)).behind [c]

end Piece

namespace Token

def isSpace (c : Char) : Bool := c == ' ' || c == '\t' || c == '\r' || c == '\n'

def mark? : Char → Option Mark
  | '[' => some .openBracket
  | ']' => some .closeBracket
  | '{' => some .openBrace
  | '}' => some .closeBrace
  | ':' => some .colon
  | ',' => some .comma
  | _ => none

def word? : (cs : List Char) → Option (Read Char Scalar cs.tail)
  | 'n' :: 'u' :: 'l' :: 'l' :: cs => some ((Read.nothing .null cs).behind ['u', 'l', 'l'])
  | 't' :: 'r' :: 'u' :: 'e' :: cs => some ((Read.nothing (.bool true) cs).behind ['r', 'u', 'e'])
  | 'f' :: 'a' :: 'l' :: 's' :: 'e' :: cs =>
    some ((Read.nothing (.bool false) cs).behind ['a', 'l', 's', 'e'])
  | _ => none

def scalar? : (cs : List Char) → Option (Read Char Scalar cs.tail)
  | [] => none
  | '"' :: cs => (Piece.read? cs).map (·.map .string)
  | c :: cs =>
    if c = '-' ∨ c.isDigit then (Decimal.Numeral.read? (c :: cs)).map (·.map .number)
    else word? (c :: cs)

def read? : (cs : List Char) → Option (Read Char Token cs.tail)
  | [] => none
  | c :: cs =>
    match mark? c with
    | some m => some (.one (mark m) c cs)
    | none => (scalar? (c :: cs)).map (·.map scalar)

def ofChars? : List Char → Option (List Token)
  | [] => some []
  | c :: cs =>
    if isSpace c then ofChars? cs
    else match read? (c :: cs) with
      | none => none
      | some r =>
        have := r.length_le
        (ofChars? r.rest).map (r.value :: ·)
termination_by cs => cs.length
decreasing_by all_goals simp_all; try omega

end Token

end FlatQuery.Json
