import FlatQuery.Embedding
import FlatQuery.Proofs.Spelling

/-! Which references a literal holds. The scan goes on behind each reference it finds, and elsewhere
one character at a time. No reference starts inside another one, so the scan finds each of them
once, in the order of their positions, and nothing of the literal is lost. -/

namespace FlatQuery

open Text (isName isNamePart isNameStart)

namespace Name

private theorem text_append_rest {cs : List Char} {r : Read Char Name cs.tail}
    (found : read? cs = some r) : r.value.text.toList ++ r.rest = cs := by
  cases cs with
  | nil => cases found
  | cons c cs =>
    rw [read?] at found
    split at found
    · cases found
      simp [Read.run]
    · cases found

private theorem exists_read?_append (name : Name) {stop : Char} (stops : isNamePart stop = false)
    (rest : List Char) :
    ∃ r, read? (name.text.toList ++ stop :: rest) = some r ∧ r.value = name ∧
      r.rest = stop :: rest := by
  obtain ⟨text,valid⟩ := name
  cases spelled : text.toList with
  | nil =>
    rw [spelled] at valid
    cases valid
  | cons c cs =>
    rw [spelled,isName,Bool.and_eq_true] at valid
    obtain ⟨start,parts⟩ := valid
    have ends : Text.Ends (!isNamePart ·) (stop :: rest) := Text.ends_cons (by simp [stops])
    have taken : (cs ++ stop :: rest).takeWhile isNamePart = cs :=
      Text.takeWhile_append_of_all parts ends
    have left : (cs ++ stop :: rest).dropWhile isNamePart = stop :: rest :=
      Text.dropWhile_append_of_all parts ends
    refine ⟨_,dif_pos start,?_,left⟩
    apply eq_of_text_eq
    change String.ofList (c :: (cs ++ stop :: rest).takeWhile isNamePart) = text
    rw [taken,← spelled,String.ofList_toList]

end Name

namespace Embedding

def braced (name : Name) : List Char := '{' :: '{' :: (name.text.toList ++ ['}','}'])

private theorem eq_cons_of_exactly? {item : Char} {cs : List Char} {r : Read Char Unit cs.tail}
    (found : Read.exactly? item cs = some r) : cs = item :: r.rest := by
  cases cs with
  | nil => cases found
  | cons c cs =>
    rw [Read.exactly?] at found
    split at found
    next same =>
      cases found
      rw [same]
      rfl
    next => cases found

private theorem exists_exactly?_of_eq_cons {item : Char} {cs rest : List Char}
    (same : cs = item :: rest) : ∃ r, Read.exactly? item cs = some r ∧ r.rest = rest := by
  subst same
  exact ⟨_,if_pos rfl,rfl⟩

private theorem braced_append_rest {cs : List Char} {r : Read Char Name cs.tail}
    (found : reference? cs = some r) : braced r.value ++ r.rest = cs := by
  unfold reference? at found
  split at found
  next cs =>
    split at found
    next name named =>
      split at found
      next first closed =>
        split at found
        next second ended =>
          cases found
          have text := Name.text_append_rest named
          rw [eq_cons_of_exactly? closed,eq_cons_of_exactly? ended] at text
          change braced name.value ++ second.rest = _
          simpa [braced] using text
        next => cases found
      next => cases found
    next => cases found
  next => cases found

private theorem exists_reference?_braced (name : Name) (rest : List Char) :
    ∃ r, reference? (braced name ++ rest) = some r ∧ r.value = name ∧ r.rest = rest := by
  have written : braced name ++ rest = '{' :: '{' :: (name.text.toList ++ '}' :: '}' :: rest) := by
    simp [braced]
  have stops : isNamePart '}' = false := rfl
  obtain ⟨r,read,value,left⟩ := name.exists_read?_append stops ('}' :: rest)
  obtain ⟨first,closed,behind⟩ := exists_exactly?_of_eq_cons left
  obtain ⟨second,ended,done⟩ := exists_exactly?_of_eq_cons behind
  rw [written]
  simp only [reference?,read,closed,ended]
  exact ⟨_,rfl,value,done⟩

/-- A reference to a name starts at a position of a text. -/
def RefersAt (cs : List Char) (position : Nat) (name : Name) : Prop := braced name <+: cs.drop position

section Positions

variable {cs front rest : List Char} {position : Nat} {name other : Name}

private theorem not_refersAt_nil : ¬ RefersAt [] position name := by
  simp [RefersAt,braced]

theorem refersAt_succ {c : Char} : RefersAt (c :: cs) (position + 1) name ↔ RefersAt cs position name :=
  Iff.rfl

private theorem not_refersAt_zero_of_reference? (unread : reference? cs = none) :
    ¬ RefersAt cs 0 name := by
  intro refers
  obtain ⟨rest,rfl⟩ := refers
  obtain ⟨r,found,_⟩ := exists_reference?_braced name rest
  change reference? (braced name ++ rest) = none at unread
  rw [unread] at found
  cases found

private theorem refersAt_append_iff (plain : '{' ∉ front) :
    RefersAt (front ++ rest) position name ↔
      ∃ further, position = front.length + further ∧ RefersAt rest further name := by
  induction front generalizing position with
  | nil => simp
  | cons c front ih =>
    rw [List.mem_cons,not_or] at plain
    rw [List.length_cons]
    cases position with
    | zero =>
      constructor
      · intro refers
        exact absurd (List.cons_prefix_cons.mp refers).1 plain.1
      · rintro ⟨further,same,_⟩
        omega
    | succ position =>
      rw [List.cons_append,refersAt_succ,ih plain.2]
      constructor
      · rintro ⟨further,rfl,refers⟩
        exact ⟨further,by omega,refers⟩
      · rintro ⟨further,same,refers⟩
        exact ⟨further,by omega,refers⟩

private theorem not_mem_of_braced (name : Name) : '{' ∉ name.text.toList ++ ['}','}'] := by
  intro inside
  rcases List.mem_append.mp inside with part | closing
  · cases Text.isNamePart_of_isName name.valid '{' part
  · simp at closing

private theorem eq_of_braced_append_eq {more : List Char}
    (same : braced name ++ rest = braced other ++ more) : name = other := by
  have texts : name.text.toList ++ '}' :: '}' :: rest = other.text.toList ++ '}' :: '}' :: more := by
    simpa [braced] using same
  have ends (after : List Char) : Text.Ends (!isNamePart ·) ('}' :: after) := Text.ends_cons rfl
  obtain ⟨equal,_⟩ := Text.append_inj_of_all (Text.all_isNamePart name.valid)
    (Text.all_isNamePart other.valid) (ends _) (ends _) texts
  exact Name.eq_of_text_eq (String.toList_inj.mp equal)

private theorem refersAt_braced_iff :
    RefersAt (braced name ++ rest) position other ↔ (position = 0 ∧ other = name) ∨
      ∃ further, position = (braced name).length + further ∧ RefersAt rest further other := by
  have body := not_mem_of_braced name
  have size : (braced name).length = (name.text.toList ++ ['}','}']).length + 2 := rfl
  rw [size]
  match position with
  | 0 =>
    constructor
    · rintro ⟨more,same⟩
      exact .inl ⟨rfl,eq_of_braced_append_eq same⟩
    · rintro (⟨_,rfl⟩ | ⟨further,impossible,_⟩)
      · exact List.prefix_append _ rest
      · omega
  | 1 =>
    constructor
    · intro refers
      obtain ⟨c,more,spelled,_⟩ := Text.exists_cons_of_isName name.valid
      have second : '{' :: (other.text.toList ++ ['}','}']) <+:
          name.text.toList ++ ['}','}'] ++ rest := (List.cons_prefix_cons.mp refers).2
      rw [spelled] at second body
      have opening : '{' = c := (List.cons_prefix_cons.mp second).1
      exact absurd (List.mem_cons.mpr (.inl opening)) body
    · rintro (⟨impossible,_⟩ | ⟨further,impossible,_⟩)
      · cases impossible
      · omega
  | position + 2 =>
    change RefersAt (_ ++ rest) position other ↔ _
    rw [refersAt_append_iff body]
    constructor
    · rintro ⟨further,rfl,refers⟩
      exact .inr ⟨further,by omega,refers⟩
    · rintro (⟨impossible,_⟩ | ⟨further,same,refers⟩)
      · cases impossible
      · exact ⟨further,by omega,refers⟩

end Positions

def Piece.chars : Piece → List Char
  | char value => [value]
  | reference name => braced name

def located : Nat → List Piece → List (Nat × Name)
  | _, [] => []
  | position, .char _ :: rest => located (position + 1) rest
  | position, .reference name :: rest => (position,name) :: located (position + (braced name).length) rest

theorem flatMap_chars_pieces (cs : List Char) : (pieces cs).flatMap Piece.chars = cs := by
  fun_induction pieces cs with
  | case1 => rfl
  | case2 c cs r found shorter ih =>
    rw [List.flatMap_cons,ih]
    exact braced_append_rest found
  | case3 c cs unread ih =>
    rw [List.flatMap_cons,ih]
    rfl

private theorem map_snd_located (start : Nat) (all : List Piece) :
    (located start all).map Prod.snd = all.filterMap Piece.name? := by
  fun_induction located start all with
  | case1 => rfl
  | case2 start value rest ih => exact ih
  | case3 start name rest ih => exact congrArg (name :: ·) ih

private theorem le_of_mem_located {start : Nat} {all : List Piece} {found : Nat × Name}
    (inside : found ∈ located start all) : start ≤ found.1 := by
  fun_induction located start all with
  | case1 => cases inside
  | case2 start value rest ih =>
    have later := ih inside
    omega
  | case3 start name rest ih =>
    rcases List.mem_cons.mp inside with rfl | further
    · exact Nat.le_refl start
    · have later := ih further
      omega

private theorem located_ordered (start : Nat) (all : List Piece) :
    (located start all).Pairwise fun first second => first.1 < second.1 := by
  fun_induction located start all with
  | case1 => exact .nil
  | case2 start value rest ih => exact ih
  | case3 start name rest ih =>
    refine List.pairwise_cons.mpr ⟨?_,ih⟩
    intro found inside
    have later := le_of_mem_located inside
    have visible : 0 < (braced name).length := Nat.succ_pos _
    change start < found.1
    omega

/-- The scan finds the references that start in a text, and no others. -/
theorem mem_located_pieces_iff (start position : Nat) (name : Name) (cs : List Char) :
    (position,name) ∈ located start (pieces cs) ↔
      ∃ further, position = start + further ∧ RefersAt cs further name := by
  fun_induction pieces cs generalizing start with
  | case1 => simp [located,not_refersAt_nil]
  | case2 c cs r found shorter ih =>
    have text := braced_append_rest found
    generalize r.value = first,r.rest = rest at text ih ⊢
    simp only [← text,located,List.mem_cons,ih,refersAt_braced_iff]
    constructor
    · rintro (same | ⟨further,rfl,refers⟩)
      · cases same
        exact ⟨0,rfl,.inl ⟨rfl,rfl⟩⟩
      · exact ⟨_,Nat.add_assoc ..,.inr ⟨further,rfl,refers⟩⟩
    · rintro ⟨_,rfl,⟨rfl,rfl⟩ | ⟨further,rfl,refers⟩⟩
      · exact .inl rfl
      · exact .inr ⟨further,(Nat.add_assoc ..).symm,refers⟩
  | case3 c cs unread ih =>
    rw [located,ih]
    constructor
    · rintro ⟨further,rfl,refers⟩
      exact ⟨further + 1,by omega,refersAt_succ.mpr refers⟩
    · rintro ⟨further,rfl,refers⟩
      cases further with
      | zero => exact absurd refers (not_refersAt_zero_of_reference? unread)
      | succ further => exact ⟨further,by omega,refersAt_succ.mp refers⟩

/-- All references of a text, each at its position, from left to right. -/
structure References (cs : List Char) (references : List (Nat × Name)) : Prop where
  ordered : references.Pairwise fun first second => first.1 < second.1
  complete : ∀ position name, (position,name) ∈ references ↔ RefersAt cs position name

theorem references_located (cs : List Char) : References cs (located 0 (pieces cs)) where
  ordered := located_ordered 0 (pieces cs)
  complete position name := by simp [mem_located_pieces_iff]

theorem names_eq_nil_iff (cs : List Char) :
    (pieces cs).filterMap Piece.name? = [] ↔ ∀ position name, ¬ RefersAt cs position name := by
  rw [← map_snd_located 0,List.map_eq_nil_iff,List.eq_nil_iff_forall_not_mem,Prod.forall]
  simp only [(references_located cs).complete]

def formatted (format : List Char) (names : List Name) : Term :=
  .call (.applied "sprintf" [("string",.string (String.ofList format)),
    ("values",.list (names.map fun name => .call (.plain name.text)))])

theorem term_of_names_eq_nil {literal : String}
    (none : (pieces literal.toList).filterMap Piece.name? = []) : term literal = .string literal := by
  simp only [term,none]

theorem term_of_names_ne_nil {literal : String}
    (some : (pieces literal.toList).filterMap Piece.name? ≠ []) :
    term literal = formatted ((pieces literal.toList).flatMap Piece.format)
      ((pieces literal.toList).filterMap Piece.name?) := by
  obtain ⟨first,rest,names⟩ := List.exists_cons_of_ne_nil some
  simp only [term,names]
  rfl

/-- The fields that the term of a literal calls, in order. -/
inductive Calls : Term → List Name → Prop
  | plain (text : String) : Calls (.string text) []
  | formatted (format : List Char) (first : Name) (rest : List Name) :
      Calls (formatted format (first :: rest)) (first :: rest)

theorem calls_term (literal : String) :
    Calls (term literal) ((pieces literal.toList).filterMap Piece.name?) := by
  cases names : (pieces literal.toList).filterMap Piece.name? with
  | nil =>
    rw [term_of_names_eq_nil names]
    exact .plain literal
  | cons first rest =>
    rw [term_of_names_ne_nil (by simp [names]),names]
    exact .formatted _ first rest

theorem term_eq_string_iff (literal : String) :
    term literal = .string literal ↔ ∀ position name, ¬ RefersAt literal.toList position name := by
  rw [← names_eq_nil_iff]
  constructor
  · intro plain
    have calls := calls_term literal
    rw [plain] at calls
    generalize (pieces literal.toList).filterMap Piece.name? = names at calls ⊢
    cases calls
    rfl
  · exact term_of_names_eq_nil

/-- The term of a literal calls the fields that the literal refers to, each once for every position
where a reference to it starts and in the order of these positions. It is the plain string if and
only if there is no reference. -/
theorem calls_each_reference (literal : String) :
    ∃ references, References literal.toList references ∧
      Calls (term literal) (references.map Prod.snd) ∧
      (term literal = .string literal ↔
        ∀ position name, ¬ RefersAt literal.toList position name) := by
  refine ⟨_,references_located literal.toList,?_,term_eq_string_iff literal⟩
  rw [map_snd_located]
  exact calls_term literal

end Embedding

end FlatQuery
