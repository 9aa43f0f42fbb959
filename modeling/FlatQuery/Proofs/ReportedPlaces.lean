import FlatQuery.Proofs.Legible
import FlatQuery.Report
import Mathlib.Algebra.GroupWithZero.Nat

/-! Places in reports. The place that is read from a text stands behind the first marker in it: digits
for the line, a colon and digits for the column, up to something that is neither a digit nor a colon.
So the place that a report is made for is the one that is read from it, whatever the text around the
marker says. -/

namespace FlatQuery

open Text (Ends ends_cons ends_nil)

namespace Decimal

private theorem value_ofNat (n : Nat) : value (ofNat n) = n := by
  have read : Nat.ofDigitChars 10 (ofNat n) 0 = n := Nat.ofDigitChars_ten_toDigits
  rw [Nat.ofDigitChars_eq_foldl] at read
  exact read

end Decimal

namespace Report

/-- No marker starts before the one that stands behind `front`. -/
def FirstBehind (front : List Char) : Prop :=
  ∀ position < front.length, ¬ marker <+: (front ++ marker).drop position

section Markers

variable {c : Char} {front rest message : List Char}

private theorem firstBehind_nil : FirstBehind [] := by
  intro position inside
  cases inside

private theorem firstBehind_cons_iff :
    FirstBehind (c :: front) ↔ ¬ marker <+: c :: (front ++ marker) ∧ FirstBehind front := by
  constructor
  · intro first
    refine ⟨first 0 (Nat.succ_pos _),?_⟩
    intro position inside
    exact first (position + 1) (Nat.succ_lt_succ inside)
  · rintro ⟨here,later⟩ position inside
    cases position with
    | zero => exact here
    | succ position => exact later position (Nat.lt_of_succ_lt_succ inside)

private theorem marker_starts_append_iff :
    marker <+: front ++ (marker ++ rest) ↔ marker <+: front ++ marker := by
  have whole : front ++ (marker ++ rest) = (front ++ marker) ++ rest := (List.append_assoc ..).symm
  rw [whole]
  constructor
  · intro starts
    apply List.prefix_of_prefix_length_le starts (List.prefix_append ..)
    rw [List.length_append]
    exact Nat.le_add_left ..
  · intro starts
    exact starts.trans (List.prefix_append ..)

private theorem afterMarker?_of_starts (starts : marker <+: c :: front) :
    afterMarker? (c :: front) = some ((c :: front).drop marker.length) := by
  rw [afterMarker?,if_pos (List.isPrefixOf_iff_prefix.mpr starts)]

private theorem afterMarker?_of_other (other : ¬ marker <+: c :: front) :
    afterMarker? (c :: front) = afterMarker? front := by
  rw [afterMarker?,if_neg fun starts => other (List.isPrefixOf_iff_prefix.mp starts)]

private theorem afterMarker?_marker_append (rest : List Char) :
    afterMarker? (marker ++ rest) = some rest := by
  have spelled : marker ++ rest = 'P' :: ("arse error at ".toList ++ rest) := rfl
  have starts : marker <+: marker ++ rest := List.prefix_append ..
  rw [spelled] at starts ⊢
  rw [afterMarker?_of_starts starts,← spelled,List.drop_left]

private theorem afterMarker?_behind (first : FirstBehind front) (rest : List Char) :
    afterMarker? (front ++ (marker ++ rest)) = some rest := by
  induction front with
  | nil => exact afterMarker?_marker_append rest
  | cons c front ih =>
    obtain ⟨here,later⟩ := firstBehind_cons_iff.mp first
    have other : ¬ marker <+: c :: (front ++ (marker ++ rest)) := by
      rw [← List.cons_append,marker_starts_append_iff]
      exact here
    rw [List.cons_append,afterMarker?_of_other other]
    exact ih later

private theorem exists_front_of_afterMarker? (found : afterMarker? message = some rest) :
    ∃ front, message = front ++ (marker ++ rest) ∧ FirstBehind front := by
  induction message with
  | nil => cases found
  | cons c message ih =>
    by_cases starts : marker <+: c :: message
    · obtain ⟨behind,spelled⟩ := starts
      rw [← spelled,afterMarker?_marker_append] at found
      cases found
      exact ⟨[],spelled.symm,firstBehind_nil⟩
    · rw [afterMarker?_of_other starts] at found
      obtain ⟨front,rfl,first⟩ := ih found
      rw [← List.cons_append,marker_starts_append_iff] at starts
      exact ⟨c :: front,rfl,firstBehind_cons_iff.mpr ⟨starts,first⟩⟩

end Markers

/-- Digits, at least one, of a number of 64 bits. -/
structure Spells (digits : List Char) (n : Nat) : Prop where
  nonempty : digits ≠ []
  all : digits.all Char.isDigit = true
  value : Decimal.value digits = n
  bounded : n < 2 ^ 64

theorem number?_eq_some_iff {digits : List Char} {n : Nat} :
    number? digits = some n ↔ Spells digits n := by
  have bound : Decimal.fitsUnsigned (Decimal.value digits) = true ↔ Decimal.value digits < 2 ^ 64 :=
    decide_eq_true_iff
  have visible : (!digits.isEmpty) = true ↔ digits ≠ [] := by simp
  rw [number?,Option.ite_none_right_eq_some,Bool.and_eq_true,Bool.and_eq_true,bound,visible]
  constructor
  · rintro ⟨⟨⟨nonempty,all⟩,bounded⟩,value⟩
    cases value
    exact ⟨nonempty,all,rfl,bounded⟩
  · rintro ⟨nonempty,all,value,bounded⟩
    subst value
    exact ⟨⟨⟨nonempty,all⟩,bounded⟩,rfl⟩

private theorem spells_ofNat {n : Nat} (bounded : n < 2 ^ 64) : Spells (Decimal.ofNat n) n where
  nonempty := Nat.toDigits_ne_nil
  all := List.all_eq_true.mpr fun _ inside => Decimal.isDigit_of_mem_ofNat inside
  value := Decimal.value_ofNat n
  bounded := bounded

def isPlaceChar (c : Char) : Bool := c.isDigit || c == ':'

/-- A line and a column as they are spelled, and behind them neither a digit nor a colon. -/
inductive Places (place : Location) : List Char → Prop
  | spelled (line column tail : List Char) (first : Spells line place.line)
      (second : Spells column place.column) (ends : Ends (!isPlaceChar ·) tail) :
      Places place (line ++ ':' :: (column ++ tail))

def placeAt? (rest : List Char) : Option Location :=
  match (rest.takeWhile isPlaceChar).dropWhile (· != ':') with
  | [] => none
  | _ :: column =>
    return ⟨← number? ((rest.takeWhile isPlaceChar).takeWhile (· != ':')),← number? column⟩

private theorem location?_eq_bind (message : List Char) :
    location? message = (afterMarker? message).bind placeAt? := rfl

section Runs

variable {digits rest : List Char}

private theorem all_isPlaceChar (all : digits.all Char.isDigit = true) :
    digits.all isPlaceChar = true := by
  rw [List.all_eq_true] at all ⊢
  intro c inside
  rw [isPlaceChar,all c inside]
  rfl

private theorem all_ne_colon (all : digits.all Char.isDigit = true) :
    digits.all (· != ':') = true := by
  rw [List.all_eq_true] at all ⊢
  intro c inside
  rw [bne_iff_ne]
  rintro rfl
  cases all ':' inside

private theorem placeAt?_of_places {place : Location} (places : Places place rest) :
    placeAt? rest = some place := by
  cases places with
  | spelled line column tail first second ends =>
    have spelled : (line ++ ':' :: column).all isPlaceChar = true := by
      rw [List.all_append,List.all_cons,all_isPlaceChar first.all,all_isPlaceChar second.all]
      rfl
    have run : (line ++ ':' :: (column ++ tail)).takeWhile isPlaceChar = line ++ ':' :: column := by
      have whole : line ++ ':' :: (column ++ tail) = (line ++ ':' :: column) ++ tail := by simp
      rw [whole]
      exact Text.takeWhile_append_of_all spelled ends
    have colon : Ends (!(· != ':') ·) (':' :: column) := ends_cons rfl
    rw [placeAt?,run,Text.takeWhile_append_of_all (all_ne_colon first.all) colon,
      Text.dropWhile_append_of_all (all_ne_colon first.all) colon]
    change (do return (⟨← number? line,← number? column⟩ : Location)) = some place
    rw [number?_eq_some_iff.mpr first,number?_eq_some_iff.mpr second]
    rfl

private theorem placeAt?_eq_some_iff {place : Location} :
    placeAt? rest = some place ↔ Places place rest := by
  constructor
  · intro read
    unfold placeAt? at read
    split at read
    next => cases read
    next c column behind =>
      have stops : Ends (!(· != ':') ·) (c :: column) := by
        rw [← behind]
        exact Text.ends_dropWhile _ _
      have colon : c = ':' := by simpa using stops c rfl
      obtain ⟨line,first,read⟩ := Option.bind_eq_some_iff.mp read
      obtain ⟨number,second,read⟩ := Option.bind_eq_some_iff.mp read
      cases read
      have run := List.takeWhile_append_dropWhile (p := (· != ':')) (l := rest.takeWhile isPlaceChar)
      have whole := List.takeWhile_append_dropWhile (p := isPlaceChar) (l := rest)
      rw [behind,colon] at run
      rw [← run,List.append_assoc,List.cons_append] at whole
      rw [← whole]
      exact .spelled _ _ _ (number?_eq_some_iff.mp first) (number?_eq_some_iff.mp second)
        (Text.ends_dropWhile _ _)
  · exact placeAt?_of_places

end Runs

theorem location?_eq_some_iff {message : List Char} {place : Location} :
    location? message = some place ↔
      ∃ front rest, message = front ++ (marker ++ rest) ∧ FirstBehind front ∧ Places place rest := by
  rw [location?_eq_bind,Option.bind_eq_some_iff]
  constructor
  · rintro ⟨rest,found,read⟩
    obtain ⟨front,spelled,first⟩ := exists_front_of_afterMarker? found
    exact ⟨front,rest,spelled,first,placeAt?_eq_some_iff.mp read⟩
  · rintro ⟨front,rest,rfl,first,places⟩
    exact ⟨rest,afterMarker?_behind first rest,placeAt?_eq_some_iff.mpr places⟩

/-- A place of 64 bits is read back from a report of it, whatever stands in front of the marker and
behind the place. And a place that is read from any text is spelled behind the first marker of the
text: its line, a colon and its column, up to something that is neither a digit nor a colon. -/
theorem location?_reads_place_behind_marker :
    (∀ (front tail : List Char) (place : Location), FirstBehind front →
      Ends (!isPlaceChar ·) tail → place.line < 2 ^ 64 → place.column < 2 ^ 64 →
      location? (front ++ marker ++ placeChars place ++ tail) = some place) ∧
    ∀ (message : List Char) (place : Location), location? message = some place ↔
      ∃ front rest, message = front ++ (marker ++ rest) ∧ FirstBehind front ∧ Places place rest := by
  refine ⟨?_,fun _ _ => location?_eq_some_iff⟩
  intro front tail place first ends line column
  have spelled : front ++ marker ++ placeChars place ++ tail = front ++ (marker ++
      (Decimal.ofNat place.line ++ ':' :: (Decimal.ofNat place.column ++ tail))) := by
    simp [placeChars]
  have places := Places.spelled _ _ _ (spells_ofNat line) (spells_ofNat column) ends
  exact location?_eq_some_iff.mpr ⟨front,_,spelled,first,places⟩

def cutFront : List Char := "Parse error at".toList

def markedTail : List Char := "é: Parse error at 3:4".toList

theorem cutFront_markedTail_place :
    FirstBehind cutFront ∧ Ends (!isPlaceChar ·) markedTail ∧
    location? (cutFront ++ marker ++ "18446744073709551615:7".toList ++ markedTail) =
      some ⟨18446744073709551615,7⟩ ∧
    ∃ front rest, cutFront ++ marker ++ "18446744073709551615:7".toList ++ markedTail =
        front ++ (marker ++ rest) ∧ FirstBehind front ∧ Places ⟨18446744073709551615,7⟩ rest := by
  have first : FirstBehind cutFront := by
    unfold FirstBehind
    decide +kernel
  have ends : Ends (!isPlaceChar ·) markedTail := ends_cons (c := 'é') rfl
  have written : placeChars ⟨18446744073709551615,7⟩ = "18446744073709551615:7".toList := by
    decide +kernel
  have read := location?_reads_place_behind_marker.1 cutFront markedTail ⟨18446744073709551615,7⟩
    first ends (by decide) (by decide)
  rw [written] at read
  exact ⟨first,ends,read,(location?_reads_place_behind_marker.2 _ _).mp read⟩

example : location? "Parse error at 3:14:15".toList = none ∧
    location? "Parse error at 18446744073709551616:1".toList = none := by
  decide +kernel

end Report

end FlatQuery
