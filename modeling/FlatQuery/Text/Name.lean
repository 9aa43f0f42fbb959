import FlatQuery.Reading

/-! Names: an ASCII letter or underscore, then letters, digits and underscores.
A `Name` carries the proof that its text has this form. -/

namespace FlatQuery

namespace Text

def isNameStart (c : Char) : Bool := c.isAlpha || c == '_'

def isNamePart (c : Char) : Bool := c.isAlphanum || c == '_'

def isName : List Char → Bool
  | [] => false
  | c :: cs => isNameStart c && cs.all isNamePart

end Text

structure Name where
  text : String
  valid : Text.isName text.toList = true
deriving DecidableEq

namespace Name

theorem eq_of_text_eq {first second : Name} (same : first.text = second.text) : first = second := by
  cases first
  cases second
  cases same
  rfl

private theorem isName_run (c : Char) (cs : List Char) (start : Text.isNameStart c = true) :
    Text.isName (String.ofList (c :: cs.takeWhile Text.isNamePart)).toList = true := by
  simp [Text.isName,start]

def read? : (cs : List Char) → Option (Read Char Name cs.tail)
  | [] => none
  | c :: cs =>
    if start : Text.isNameStart c = true then
      some ((Read.run Text.isNamePart cs).map fun _ => ⟨_, isName_run c cs start⟩)
    else none

end Name

end FlatQuery
