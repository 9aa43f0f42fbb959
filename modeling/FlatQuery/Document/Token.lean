import FlatQuery.Decimal.Numeral
import FlatQuery.Document.BlockText
import FlatQuery.Text.Hex
import FlatQuery.Text.Name

/-! The tokens of a GraphQL document. Numbers and strings are decoded as they are read, so what
cannot be decoded is no token. -/

namespace FlatQuery.Document

inductive Mark where
  | bang | dollar | colon | equals | atSign | pipe | ampersand | ellipsis
  | openParen | closeParen | openBracket | closeBracket | openBrace | closeBrace
deriving DecidableEq

/-- `torn` is a block string whose indentation ends inside a character. -/
inductive Token where
  | mark (value : Mark)
  | name (value : Name)
  | int (value : Int)
  | float (value : Decimal.Double)
  | string (value : String)
  | torn
deriving DecidableEq

namespace Mark

def ofChar? : Char → Option Mark
  | '!' => some bang
  | '$' => some dollar
  | ':' => some colon
  | '=' => some equals
  | '@' => some atSign
  | '|' => some pipe
  | '&' => some ampersand
  | '(' => some openParen
  | ')' => some closeParen
  | '[' => some openBracket
  | ']' => some closeBracket
  | '{' => some openBrace
  | '}' => some closeBrace
  | _ => none

def opens : Mark → Bool
  | openParen | openBracket | openBrace => true
  | _ => false

def closes : Mark → Bool
  | closeParen | closeBracket | closeBrace => true
  | _ => false

end Mark

namespace Token

def escape? : Char → Option Char
  | '"' => some '"'
  | '\\' => some '\\'
  | '/' => some '/'
  | 'b' => some '\x10'
  | 'f' => some '\x0c'
  | 'n' => some '\n'
  | 'r' => some '\r'
  | 't' => some '\t'
  | _ => none

/-- The character with the code of four hexadecimal digits, the first of which may be a plus
sign instead. Surrogates are no characters. -/
def codePoint? (a b c d : Char) : Option Char :=
  (Text.hexValue? (if a = '+' then [b, c, d] else [a, b, c, d])).bind fun code =>
    if code.isValidChar then some (Char.ofNat code) else none

def readString? : (cs : List Char) → Option (Read Char (List Char) cs)
  | [] => none
  | '"' :: cs => some ((Read.nothing [] cs).behind ['"'])
  | '\\' :: 'u' :: a :: b :: c :: d :: cs =>
    match codePoint? a b c d, readString? cs with
    | some value, some r => some ((r.map (value :: ·)).behind ['\\', 'u', a, b, c, d])
    | _, _ => none
  | '\\' :: c :: cs =>
    match escape? c, readString? cs with
    | some value, some r => some ((r.map (value :: ·)).behind ['\\', c])
    | _, _ => none
  | c :: cs =>
    if c = '\n' ∨ c = '\\' then none else (readString? cs).map fun r => (r.map (c :: ·)).behind [c]

def endsNumber (c : Char) : Bool :=
  [' ', '\n', '\r', '\t', ',', '#'].contains c || (Mark.ofChar? c).isSome

def exponentAllowed : Option Decimal.Exponent → Bool
  | some (.unsigned (c :: _)) => '1' ≤ c && c ≤ '8'
  | _ => true

def number? (cs : List Char) : Option Token :=
  (Decimal.Numeral.ofChars? cs).bind fun n =>
    if n.isWhole then if Decimal.fitsSigned n.toInt then some (int n.toInt) else none
    else if exponentAllowed n.exponent then some (float n.toDouble)
    else none

def readNumber? : (cs : List Char) → Option (Read Char Token cs.tail)
  | [] => none
  | c :: cs =>
    let r := Read.run (!endsNumber ·) cs
    (number? (c :: r.value)).map fun token => r.map fun _ => token

def ofBlock (content : List Char) : Token :=
  match BlockText.decode? content with
  | some text => string (String.ofList text)
  | none => torn

def read? : (cs : List Char) → Option (Read Char Token cs.tail)
  | [] => none
  | '.' :: '.' :: '.' :: cs => some ((Read.nothing (mark .ellipsis) cs).behind ['.', '.'])
  | '"' :: '"' :: '"' :: cs => (BlockText.read? '"' cs).map fun r => (r.map ofBlock).behind ['"', '"']
  | '"' :: cs => (readString? cs).map fun r => r.map fun text => string (String.ofList text)
  | c :: cs =>
    match Mark.ofChar? c with
    | some m => some (.one (mark m) c cs)
    | none =>
      if c = '-' ∨ c.isDigit then readNumber? (c :: cs)
      else (Name.read? (c :: cs)).map fun r => r.map name

end Token

end FlatQuery.Document
