import FlatQuery.Text.Name

/-! Strings inside a flat query: bare where they are plain words, otherwise between
double quotes with a backslash before each quote and backslash. -/

namespace FlatQuery.Text

/-- Words that stand for a value of their own and not for a string. -/
def keywords : List (List Char) := ["true".toList, "false".toList, "null".toList]

def isBareWord (cs : List Char) : Bool := isName cs && !keywords.contains cs

def escapeQuote (c : Char) : List Char := if c = '"' ∨ c = '\\' then ['\\', c] else [c]

def quote (cs : List Char) : List Char := '"' :: cs.flatMap escapeQuote ++ ['"']

def bareOrQuoted (cs : List Char) : List Char := if isBareWord cs then cs else quote cs

end FlatQuery.Text
