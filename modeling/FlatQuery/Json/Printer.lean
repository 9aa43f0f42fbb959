import FlatQuery.Decimal.Shortest
import FlatQuery.Json.Basic

/-! JSON text over several lines, with two blanks for each level. -/

namespace FlatQuery.Json

def hexChar (n : Nat) : Char := (Nat.toDigits 16 n).headD '0'

def escape (c : Char) : List Char :=
  if c = '"' then ['\\', '"']
  else if c = '\\' then ['\\', '\\']
  else if c = '\n' then ['\\', 'n']
  else if c = '\r' then ['\\', 'r']
  else if c = '\t' then ['\\', 't']
  else if c = '\x08' then ['\\', 'b']
  else if c = '\x0c' then ['\\', 'f']
  else if c.toNat < 0x20 then ['\\', 'u', '0', '0', hexChar (c.toNat / 16), hexChar (c.toNat % 16)]
  else [c]

def stringChars (s : String) : List Char := '"' :: s.toList.flatMap escape ++ ['"']

def newLine (level : Nat) : List Char := '\n' :: List.replicate (2 * level) ' '

mutual

def charsAt (level : Nat) : Json → List Char
  | .null => ['n', 'u', 'l', 'l']
  | .bool value => if value then ['t', 'r', 'u', 'e'] else ['f', 'a', 'l', 's', 'e']
  | .integer value => Decimal.ofInt value
  | .real value => if value.isFinite then value.chars else ['n', 'u', 'l', 'l']
  | .string value => stringChars value
  | .array items =>
    if items.isEmpty then ['[', ']'] else '[' :: itemChars (level + 1) items ++ newLine level ++ [']']
  | .object members =>
    if members.isEmpty then ['{', '}'] else '{' :: memberChars (level + 1) members ++ newLine level ++ ['}']

def itemChars (level : Nat) : List Json → List Char
  | [] => []
  | [item] => newLine level ++ charsAt level item
  | item :: items => newLine level ++ charsAt level item ++ ',' :: itemChars level items

def memberChars (level : Nat) : List (String × Json) → List Char
  | [] => []
  | [(key, value)] => newLine level ++ stringChars key ++ ':' :: ' ' :: charsAt level value
  | (key, value) :: members =>
    newLine level ++ stringChars key ++ ':' :: ' ' :: charsAt level value ++ ',' :: memberChars level members

end

def pretty (value : Json) : String := String.ofList (charsAt 0 value)

end FlatQuery.Json
