import FlatQuery.Term
import FlatQuery.Text.Quoted
import FlatQuery.Decimal.Shortest

/-! The written form of terms, steps and directives. A field used as a value keeps its
parentheses even without arguments, so that it is not taken for a string. -/

namespace FlatQuery

namespace Step

def parenthesized (call : Bool) (arguments : Arguments) (written : List Char) : List Char :=
  if arguments.isEmpty && !call then [] else '(' :: written ++ [')']

def aliasChars : Option String → List Char
  | none => []
  | some name => '@' :: name.toList

def angled (directives : List Directive) (written : List Char) : List Char :=
  if directives.isEmpty then [] else '<' :: written ++ ['>']

end Step

mutual

def Term.chars : Term → List Char
  | .null => ['n', 'u', 'l', 'l']
  | .bool value => if value then ['t', 'r', 'u', 'e'] else ['f', 'a', 'l', 's', 'e']
  | .int value => Decimal.ofInt value
  | .float value => value.chars
  | .string value => Text.bareOrQuoted value.toList
  | .enum name => name.toList
  | .list items => '[' :: Term.listChars items ++ [']']
  | .object members => '{' :: Term.memberChars members ++ ['}']
  | .expression name => ['%', '{'] ++ name.toList ++ ['}', '%']
  | .call step => step.charsAs true

def Term.listChars : List Term → List Char
  | [] => []
  | [item] => item.chars
  | item :: items => item.chars ++ ',' :: Term.listChars items

def Term.memberChars : List (String × Term) → List Char
  | [] => []
  | [(key, term)] => key.toList ++ ':' :: term.chars
  | (key, term) :: members => key.toList ++ ':' :: term.chars ++ ',' :: Term.memberChars members

/-- A field, either as a call inside a term or as a step of a path. -/
def Step.charsAs (call : Bool) : Step → List Char
  | ⟨name, arguments, alias?, directives⟩ =>
    name.toList ++ Step.parenthesized call arguments (Term.memberChars arguments) ++
      Step.aliasChars alias? ++ Step.angled directives (Directive.listChars directives)

def Directive.chars : Directive → List Char
  | ⟨name, arguments⟩ => name.toList ++ Step.parenthesized false arguments (Term.memberChars arguments)

def Directive.listChars : List Directive → List Char
  | [] => []
  | [directive] => directive.chars
  | directive :: directives => directive.chars ++ '|' :: Directive.listChars directives

end

def Step.chars (step : Step) : List Char := step.charsAs false

def Term.text (term : Term) : String := String.ofList term.chars

def Step.text (step : Step) : String := String.ofList step.chars

def Directive.text (directive : Directive) : String := String.ofList directive.chars

end FlatQuery
