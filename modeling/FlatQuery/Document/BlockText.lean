import FlatQuery.Reading
import FlatQuery.Text.Blank

/-! Block strings: text between triple quotes, from which the common indentation and the
blank lines around it are removed. -/

namespace FlatQuery.Document.BlockText

def read? (previous : Char) : (cs : List Char) → Option (Read Char (List Char) cs)
  | [] => none
  | '"' :: '"' :: '"' :: cs =>
    if previous = '\\' then
      (read? '"' cs).map fun r => (r.map (['"', '"', '"'] ++ ·)).behind ['"', '"', '"']
    else some ((Read.nothing [] cs).behind ['"', '"', '"'])
  | c :: cs => (read? c cs).map fun r => (r.map (c :: ·)).behind [c]

def lines : List Char → List (List Char)
  | [] => []
  | '\r' :: '\n' :: cs => [] :: lines cs
  | '\n' :: cs => [] :: lines cs
  | c :: cs =>
    match lines cs with
    | [] => [[c]]
    | line :: rest => (c :: line) :: rest

def isBlankLine (line : List Char) : Bool := line.all Text.isBlank

def indent (line : List Char) : Nat := Text.utf8Length (line.takeWhile Text.isBlank)

/-- Removes bytes from the front of a line, unless that would tear a character. -/
def cut? : (bytes : Nat) → List Char → Option (List Char)
  | 0, cs => some cs
  | _ + 1, [] => some []
  | n + 1, c :: cs => if c.utf8Size ≤ n + 1 then cut? (n + 1 - c.utf8Size) cs else none

def dedentLine? (common : Nat) (line : List Char) : Option (List Char) :=
  if Text.utf8Length line < common then some line else cut? common line

def unescape : List Char → List Char
  | [] => []
  | '\\' :: '"' :: '"' :: '"' :: cs => '"' :: '"' :: '"' :: unescape cs
  | c :: cs => c :: unescape cs

def commonIndent (lines : List (List Char)) : Nat :=
  (((lines.filter (!isBlankLine ·)).map indent).min?).getD 0

/-- What a block string stands for. The first line keeps its indentation and has no say in the
common one. -/
def decode? (content : List Char) : Option (List Char) := do
  match lines content with
  | [] => some []
  | first :: others =>
    let common := commonIndent others
    let marked := (0, first) :: others.map (common, ·)
    let kept := ((marked.dropWhile (isBlankLine ·.2)).reverse.dropWhile (isBlankLine ·.2)).reverse
    let dedented ← kept.mapM fun line => dedentLine? line.1 line.2
    return ['\n'].intercalate (dedented.map unescape)

end FlatQuery.Document.BlockText
