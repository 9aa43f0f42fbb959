/-! Places in a submitted text, counted from line 1 and column 1. -/

namespace FlatQuery

structure Location where
  line : Nat
  column : Nat
deriving DecidableEq, Repr, Inhabited

namespace Location

def start : Location := ⟨1, 1⟩

def nextLine (place : Location) : Location := ⟨place.line + 1, 1⟩

def right (place : Location) (columns : Nat) : Location := ⟨place.line, place.column + columns⟩

/-- The place after `text`: a line feed starts a new line, any other character
takes one column. -/
def after (place : Location) : List Char → Location
  | [] => place
  | c :: cs => if c = '\n' then place.nextLine.after cs else (place.right 1).after cs

def Before (a b : Location) : Prop := a.line < b.line ∨ a.line = b.line ∧ a.column < b.column

end Location

end FlatQuery
