import FlatQuery.Proofs.References

/-! Formats: the text of a literal with a placeholder for each reference. Reading a format piece by
piece gives back the literal, so percent signs of the literal are never taken for placeholders. -/

namespace FlatQuery.Embedding

/-- Reads a format from left to right with a value for each placeholder. A percent sign is doubled
or starts a placeholder, and there are as many placeholders as values. -/
def fill? : List Char → List (List Char) → Option (List Char)
  | [], [] => some []
  | [], _ :: _ => none
  | '%' :: '%' :: format, values => (fill? format values).map ('%' :: ·)
  | '%' :: 's' :: format, value :: values => (fill? format values).map (value ++ ·)
  | c :: format, values => if c = '%' then none else (fill? format values).map (c :: ·)

private theorem fill?_cons_of_ne {c : Char} (other : c ≠ '%') (format : List Char)
    (values : List (List Char)) : fill? (c :: format) values = (fill? format values).map (c :: ·) := by
  simp [fill?,other]

def Piece.values (piece : Piece) : List (List Char) := piece.name?.toList.map braced

private theorem fill?_piece (piece : Piece) (format : List Char) (values : List (List Char)) :
    fill? (piece.format ++ format) (piece.values ++ values) =
      (fill? format values).map (piece.chars ++ ·) := by
  cases piece with
  | reference name => rfl
  | char c =>
    by_cases percent : c = '%'
    · subst percent
      rfl
    · rw [Piece.format,if_neg percent]
      exact fill?_cons_of_ne percent format values

private theorem fill?_pieces (all : List Piece) :
    fill? (all.flatMap Piece.format) (all.flatMap Piece.values) = some (all.flatMap Piece.chars) := by
  induction all with
  | nil => rfl
  | cons piece rest ih =>
    rw [List.flatMap_cons,List.flatMap_cons,fill?_piece,ih]
    rfl

private theorem flatMap_values (all : List Piece) :
    all.flatMap Piece.values = (all.filterMap Piece.name?).map braced := by
  induction all with
  | nil => rfl
  | cons piece rest ih =>
    rw [List.flatMap_cons,ih]
    cases piece with
    | char c => rfl
    | reference name => rfl

/-- A literal stays as it is if it refers to nothing. Otherwise its term is a call with a format and
the fields to call, at least one, and filling the format with the references to these fields gives
back the literal. -/
theorem format_fills_to_literal (literal : String) :
    (term literal = .string literal ∧ ∀ position name, ¬ RefersAt literal.toList position name) ∨
    ∃ format names, names ≠ [] ∧ term literal = formatted format names ∧
      fill? format (names.map braced) = some literal.toList := by
  by_cases none : (pieces literal.toList).filterMap Piece.name? = []
  · exact .inl ⟨term_of_names_eq_nil none,(names_eq_nil_iff _).mp none⟩
  · refine .inr ⟨_,_,none,term_of_names_ne_nil none,?_⟩
    rw [← flatMap_values,fill?_pieces,flatMap_chars_pieces]

example : fill? "%s%%s".toList ["{{a}}".toList] = some "{{a}}%s".toList ∧
    fill? "5%".toList [] = none := ⟨rfl,rfl⟩

end FlatQuery.Embedding
