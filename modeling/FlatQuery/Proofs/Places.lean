import FlatQuery.Proofs.Batches
import FlatQuery.Proofs.Legible
import Mathlib.Data.List.TakeWhile

/-! Where the operations of a document stand. Lexemes are found from the front of a text to its end,
and an operation starts at its first lexeme, so no two operations of a document share a place or an
identifier. White space holds no lexeme, so a text of it is no document. -/

namespace FlatQuery

namespace Location

variable {first second third : Location}

theorem not_before_self (place : Location) : ¬ place.Before place := by
  simp [Before]

theorem before_right (place : Location) (columns : Nat) : place.Before (place.right (columns + 1)) :=
  .inr ⟨rfl,Nat.lt_add_of_pos_right columns.succ_pos⟩

theorem before_nextLine (place : Location) : place.Before place.nextLine :=
  .inl (Nat.lt_succ_self place.line)

theorem Before.asymm (earlier : first.Before second) : ¬ second.Before first := by
  simp only [Before] at earlier ⊢
  omega

theorem Before.of_not_before (earlier : first.Before second) (later : ¬ third.Before second) :
    first.Before third := by
  simp only [Before] at earlier later ⊢
  omega

theorem not_before_trans (later : ¬ second.Before first) (last : ¬ third.Before second) :
    ¬ third.Before first := by
  simp only [Before] at later last ⊢
  omega

private theorem not_after_before (place : Location) (cs : List Char) :
    ¬ (place.after cs).Before place := by
  induction cs generalizing place with
  | nil => exact not_before_self place
  | cons c cs ih =>
    rw [after]
    split
    · exact not_before_trans (before_nextLine place).asymm (ih place.nextLine)
    · exact not_before_trans (before_right place 0).asymm (ih (place.right 1))

private theorem before_after_cons (place : Location) (c : Char) (cs : List Char) :
    place.Before (place.after (c :: cs)) := by
  rw [after]
  split
  · exact (before_nextLine place).of_not_before (not_after_before place.nextLine cs)
  · exact (before_right place 0).of_not_before (not_after_before (place.right 1) cs)

end Location

private theorem Text.invisible_of_isBlank {c : Char} (blank : isBlank c = true) :
    ¬ (33 ≤ c.toNat ∧ c.toNat ≤ 126) := by
  simp [isBlank,blankRanges] at blank
  omega

private theorem Text.isBlank_of_trim_isEmpty {cs : List Char} (empty : (trim cs).isEmpty = true) :
    ∀ c ∈ cs, isBlank c = true := by
  have right : ∀ c ∈ cs.dropWhile isBlank, isBlank c = true := by
    simpa [trim,List.dropWhile_eq_nil_iff] using empty
  intro c inside
  rw [← List.takeWhile_append_dropWhile (p := isBlank) (l := cs)] at inside
  rcases List.mem_append.mp inside with front | back
  · exact List.mem_takeWhile_imp front
  · exact right c back

namespace Document

private theorem Token.read?_eq_none_of_isBlank {c : Char} (cs : List Char)
    (blank : Text.isBlank c = true) : Token.read? (c :: cs) = none := by
  have invisible := Text.invisible_of_isBlank blank
  have other (d : Char) (visible : 33 ≤ d.toNat ∧ d.toNat ≤ 126) : c ≠ d := by
    rintro rfl
    exact invisible visible
  have noMark : Mark.ofChar? c = none := by
    rw [Mark.ofChar?]
    all_goals exact other _ (by decide)
  have noDigit : c.isDigit = false := by
    simp [Char.isDigit,UInt32.le_iff_toNat_le]
    omega
  have noName : Text.isNameStart c = false := by
    rw [Bool.eq_false_iff]
    intro start
    have bounds := Text.bounds_of_isNameStart start
    omega
  -- the earlier rows want a point or a quote in front
  rw [Token.read?]
  · simp [noMark,noDigit,other '-' (by decide),Name.read?,noName]
  · exact fun _ same => absurd same (other '.' (by decide))
  · exact fun _ same => absurd same (other '"' (by decide))
  · exact fun same => absurd same (other '"' (by decide))

namespace Lexemes

/-- Lexemes one after the other, none of them before a place. -/
structure Forward (place : Location) (lexemes : List Lexeme) : Prop where
  start : ∀ lexeme ∈ lexemes, ¬ lexeme.location.Before place
  ordered : lexemes.Pairwise fun first second => first.location.Before second.location

namespace Forward

variable {place next : Location} {lexemes : List Lexeme}

theorem nil (place : Location) : Forward place [] := ⟨by simp,.nil⟩

theorem mono (later : ¬ next.Before place) (forward : Forward next lexemes) :
    Forward place lexemes := by
  refine ⟨?_,forward.ordered⟩
  intro lexeme inside
  exact Location.not_before_trans later (forward.start lexeme inside)

theorem cons (token : Token) (later : place.Before next) (forward : Forward next lexemes) :
    Forward place (⟨token,place⟩ :: lexemes) where
  start := List.forall_mem_cons.mpr
    ⟨Location.not_before_self place,(forward.mono later.asymm).start⟩
  ordered := by
    refine List.pairwise_cons.mpr ⟨?_,forward.ordered⟩
    intro lexeme inside
    exact later.of_not_before (forward.start lexeme inside)

end Forward

private theorem not_before_of_ignore? {place next : Location} {c : Char}
    (ignored : ignore? place c = some next) : ¬ next.Before place := by
  unfold ignore? at ignored
  split at ignored <;> cases ignored
  · exact Location.not_before_self place
  · exact Location.not_before_self place
  · exact (Location.before_right place 7).asymm
  · exact (Location.before_nextLine place).asymm
  · exact (Location.before_right place 0).asymm
  · exact (Location.before_right place 0).asymm

private theorem before_after_taken (place : Location) {c : Char} {cs : List Char}
    (r : Read Char Token (c :: cs).tail) : place.Before (place.after r.within.taken) := by
  have whole := r.within.taken_append
  have shorter : r.rest.length ≤ cs.length := r.length_le
  cases taken : r.within.taken with
  | nil =>
    rw [taken,List.nil_append] at whole
    have same := congrArg List.length whole
    simp only [Read.within_rest,List.length_cons] at same
    omega
  | cons d ds => exact Location.before_after_cons place d ds

theorem forward_scan (place : Location) (opened : Nat) (cs : List Char) :
    Forward place (scan place opened cs).list := by
  fun_induction scan place opened cs with
  | case1 place opened => exact .nil place
  | case2 place opened c cs next ignored ih => exact ih.mono (not_before_of_ignore? ignored)
  | case3 place opened cs ignored ends => exact .nil place
  | case4 place opened cs ignored r comment ih => exact ih.mono (Location.before_nextLine place).asymm
  | case5 place opened c cs ignored plain unread => exact .nil place
  | case6 place opened c cs ignored plain r found full => exact .nil place
  | case7 place opened c cs ignored plain r found now room more ih =>
    exact ih.cons r.value (before_after_taken place r)

private theorem scan_eq_nil_of_blank (place : Location) (opened : Nat) {cs : List Char}
    (blank : ∀ c ∈ cs, Text.isBlank c = true) : (scan place opened cs).list = [] := by
  fun_induction scan place opened cs with
  | case1 | case3 | case5 | case6 => rfl
  | case2 place opened c cs next ignored ih => exact ih (List.forall_mem_cons.mp blank).2
  | case4 place opened cs ignored r comment ih =>
    have absent : Text.isBlank '#' = false := by decide
    simp [absent] at blank
  | case7 place opened c cs ignored plain r found now room more ih =>
    rw [Token.read?_eq_none_of_isBlank cs (blank c (by simp))] at found
    cases found

end Lexemes

namespace Grammar

variable {lexeme : Lexeme} {lexemes : List Lexeme}

private theorem location_of_operation_ok {kind : Kind} {location : Location}
    {r : Read Lexeme Operation lexemes} (ok : operation kind location lexemes = .ok r) :
    r.value.location = location := by
  simp only [operation,bind_eq_ok_iff,pure_eq_ok_iff] at ok
  obtain ⟨declared,_,applied,_,body,_,rfl⟩ := ok
  rfl

private theorem location_of_definition_ok {r : Read Lexeme Definition (lexeme :: lexemes).tail}
    {value : Operation} (ok : definition (lexeme :: lexemes) = .ok r) (found : r.value = .operation value) :
    value.location = lexeme.location := by
  rw [definition] at ok
  split at ok
  · simp only [bind_eq_ok_iff,pure_eq_ok_iff] at ok
    obtain ⟨body,_,rfl⟩ := ok
    cases found
    rfl
  · split at ok
    · simp only [bind_eq_ok_iff,pure_eq_ok_iff] at ok
      obtain ⟨inner,computed,rfl⟩ := ok
      cases found
      exact location_of_operation_ok computed
    · split at ok
      · simp only [bind_eq_ok_iff,pure_eq_ok_iff] at ok
        obtain ⟨inner,_,rfl⟩ := ok
        cases found
      · cases ok
  · cases ok

private theorem locations_sublist_cons {head : Definition} {more : List Definition}
    (starts : ∀ operation, head = .operation operation → operation.location = lexeme.location)
    (later : ((Document.mk more).operations.map Operation.location).Sublist
      (lexemes.map Lexeme.location)) :
    ((Document.mk (head :: more)).operations.map Operation.location).Sublist
      ((lexeme :: lexemes).map Lexeme.location) := by
  cases head with
  | fragment value => exact later.cons lexeme.location
  | operation value =>
    rw [List.map_cons,← starts value rfl]
    exact later.cons_cons value.location

private theorem locations_sublist_of_definitions_ok {found : List Definition}
    (ok : definitions lexemes = .ok found) :
    ((Document.mk found).operations.map Operation.location).Sublist
      (lexemes.map Lexeme.location) := by
  fun_induction definitions lexemes generalizing found with
  | case1 => cases ok
  | case2 first rest ih =>
    obtain ⟨head,computed,remaining⟩ := bind_eq_ok_iff.mp ok
    have later : (head.rest.map Lexeme.location).Sublist (rest.map Lexeme.location) :=
      head.suffix.sublist.map _
    have starts (operation : Operation) (value : head.value = .operation operation) :
        operation.location = first.location := location_of_definition_ok computed value
    split at remaining
    · cases remaining
      exact locations_sublist_cons starts (List.nil_sublist _)
    · obtain ⟨more,read,joined⟩ := bind_eq_ok_iff.mp remaining
      cases joined
      exact locations_sublist_cons starts ((ih head read).trans later)

end Grammar

/-- Operations of one document start at different places, in the order of these places. -/
theorem locations_ordered_of_parse_ok {text : String} {document : Document}
    (parsed : Document.parse text = .ok document) :
    (document.operations.map Operation.location).Pairwise Location.Before := by
  rw [Document.parse,Document.ofLexemes] at parsed
  split at parsed
  · cases parsed
  next definitions read =>
    split at parsed
    · cases parsed
      have ordered := (Lexemes.forward_scan .start 0 text.toList).ordered
      exact (List.pairwise_map.mpr ordered).sublist (Grammar.locations_sublist_of_definitions_ok read)
    · cases parsed

namespace Operation

theorem location_eq_of_id_eq {first second : Operation} (same : first.id = second.id) :
    first.location = second.location := by
  have digits (n : Nat) : (Decimal.ofNat n).all Char.isDigit = true :=
    List.all_eq_true.mpr fun _ inside => Decimal.isDigit_of_mem_ofNat inside
  have ends (cs : List Char) : Text.Ends (!Char.isDigit ·) ('-' :: cs) := Text.ends_cons rfl
  have texts := String.ofList_injective same
  obtain ⟨lines,columns⟩ :=
    Text.append_inj_of_all (digits _) (digits _) (ends _) (ends _) texts
  have line := Decimal.ofNat_injective lines
  have column := Decimal.ofNat_injective (List.cons.inj columns).2
  have places : Location.mk first.location.line first.location.column =
      ⟨second.location.line,second.location.column⟩ := by rw [line,column]
  exact places

end Operation

theorem not_blank_of_parse_ok {text : String} {document : Document}
    (parsed : Document.parse text = .ok document) : (Text.trim text.toList).isEmpty = false := by
  cases blank : (Text.trim text.toList).isEmpty with
  | false => rfl
  | true =>
    have empty : (Lexemes.ofText text).list = [] :=
      Lexemes.scan_eq_nil_of_blank .start 0 (Text.isBlank_of_trim_isEmpty blank)
    rw [Document.parse,Document.ofLexemes,empty,Grammar.definitions] at parsed
    cases parsed

/-- What conversions take from a parser besides the documents: it finds none in white space only, and
the operations of a document start one behind the other. -/
structure Parser.Lawful (parse : Parser) : Prop where
  not_blank : ∀ text document, parse text = .ok document → (Text.trim text.toList).isEmpty = false
  ordered : ∀ text document, parse text = .ok document →
    (document.operations.map Operation.location).Pairwise Location.Before

theorem parse_lawful : Parser.Lawful Document.parse where
  not_blank _ _ := not_blank_of_parse_ok
  ordered _ _ := locations_ordered_of_parse_ok

theorem Parser.Lawful.ids_nodup {parse : Parser} (lawful : parse.Lawful) {text : String}
    {document : Document} (parsed : parse text = .ok document) :
    (document.operations.map Operation.id).Nodup := by
  have ordered := List.pairwise_map.mp (lawful.ordered text document parsed)
  refine List.pairwise_map.mpr (ordered.imp ?_)
  intro first second earlier same
  rw [Operation.location_eq_of_id_eq same] at earlier
  exact Location.not_before_self second.location earlier

end Document

theorem Request.ofSubmission_eq_of_parse_ok {parse : Document.Parser} (lawful : parse.Lawful)
    {submission : Submission} {document : Document} (parsed : parse submission.text = .ok document) :
    ofSubmission submission parse = (ofDocument document submission).mapError .problem := by
  have accepted : acceptedDocument parse submission.text = .ok document := by
    rw [acceptedDocument,lawful.not_blank _ _ parsed,parsed]
    rfl
  rw [ofSubmission_eq_bind,accepted]
  rfl

end FlatQuery
