import FlatQuery.Proofs.Nesting
import FlatQuery.Proofs.Rounding
import FlatQuery.Term.OfJson
import Mathlib.Algebra.Ring.Int.Defs

/-! Integers inside submitted values. Two JSON values of one shape have the same text exactly if their
integers are spelled alike one by one, since what follows a number cannot go on with it. Integers below
2 ^ 63 keep their digits; those from there on go through a double and may come out as others. -/

namespace FlatQuery

open Decimal (fitsSigned fitsUnsigned isNumeric)
open Text (Ends ends_cons ends_nil)

namespace Json

mutual

def termWith (integer : Int → Term) : Json → Term
  | .null => .null
  | .bool value => .bool value
  | .integer value => integer value
  | .real value => .float value
  | .string value => .string value
  | .array items => .list (itemsWith integer items)
  | .object members => .object (membersWith integer members)

def itemsWith (integer : Int → Term) : List Json → List Term
  | [] => []
  | item :: items => item.termWith integer :: itemsWith integer items

def membersWith (integer : Int → Term) : List (String × Json) → List (String × Term)
  | [] => []
  | (key,value) :: members => (key,value.termWith integer) :: membersWith integer members

end

mutual

/-- The integers in a JSON value, in the order of its text. -/
def integers : Json → List Int
  | .integer value => [value]
  | .array items => itemsIntegers items
  | .object members => membersIntegers members
  | .null | .bool _ | .real _ | .string _ => []

def itemsIntegers : List Json → List Int
  | [] => []
  | item :: items => item.integers ++ itemsIntegers items

def membersIntegers : List (String × Json) → List Int
  | [] => []
  | (_,value) :: members => value.integers ++ membersIntegers members

end

mutual

/-- Two JSON values that differ in their integers at most. -/
inductive Alike : Json → Json → Prop
  | null : Alike .null .null
  | bool (value) : Alike (.bool value) (.bool value)
  | integer (first second) : Alike (.integer first) (.integer second)
  | real (value) : Alike (.real value) (.real value)
  | string (value) : Alike (.string value) (.string value)
  | array {items others} (alike : ItemsAlike items others) : Alike (.array items) (.array others)
  | object {members others} (alike : MembersAlike members others) :
      Alike (.object members) (.object others)

inductive ItemsAlike : List Json → List Json → Prop
  | nil : ItemsAlike [] []
  | cons {item other items others} (first : Alike item other) (alike : ItemsAlike items others) :
      ItemsAlike (item :: items) (other :: others)

inductive MembersAlike : List (String × Json) → List (String × Json) → Prop
  | nil : MembersAlike [] []
  | cons (key) {value other members others} (first : Alike value other)
      (alike : MembersAlike members others) :
      MembersAlike ((key,value) :: members) ((key,other) :: others)

end

mutual

theorem termWith_ofInteger : (json : Json) → json.termWith Term.ofInteger = Term.ofJson json
  | .null | .bool _ | .integer _ | .real _ | .string _ => rfl
  | .array items => by rw [termWith,Term.ofJson,itemsWith_ofInteger]
  | .object members => by rw [termWith,Term.ofJson,membersWith_ofInteger]

private theorem itemsWith_ofInteger : (items : List Json) →
    itemsWith Term.ofInteger items = Term.ofItems items
  | [] => rfl
  | item :: items => by rw [itemsWith,Term.ofItems,item.termWith_ofInteger,itemsWith_ofInteger]

private theorem membersWith_ofInteger : (members : List (String × Json)) →
    membersWith Term.ofInteger members = Term.ofMembers members
  | [] => rfl
  | (key,value) :: members => by
    rw [membersWith,Term.ofMembers,value.termWith_ofInteger,membersWith_ofInteger]

end

mutual

theorem alike_refl : (json : Json) → Alike json json
  | .null => .null
  | .bool value => .bool value
  | .integer value => .integer value value
  | .real value => .real value
  | .string value => .string value
  | .array items => .array (itemsAlike_refl items)
  | .object members => .object (membersAlike_refl members)

private theorem itemsAlike_refl : (items : List Json) → ItemsAlike items items
  | [] => .nil
  | item :: items => .cons item.alike_refl (itemsAlike_refl items)

private theorem membersAlike_refl : (members : List (String × Json)) → MembersAlike members members
  | [] => .nil
  | (key,value) :: members => .cons key value.alike_refl (membersAlike_refl members)

end

mutual

theorem Alike.length_integers {first second : Json} :
    Alike first second → first.integers.length = second.integers.length
  | .null | .bool _ | .integer _ _ | .real _ | .string _ => rfl
  | .array alike => by rw [integers,integers,alike.length_integers]
  | .object alike => by rw [integers,integers,alike.length_integers]

theorem ItemsAlike.length_integers {items others : List Json} :
    ItemsAlike items others → (itemsIntegers items).length = (itemsIntegers others).length
  | .nil => rfl
  | .cons first alike => by
    rw [itemsIntegers,itemsIntegers,List.length_append,List.length_append,first.length_integers,
      alike.length_integers]

theorem MembersAlike.length_integers {members others : List (String × Json)} :
    MembersAlike members others → (membersIntegers members).length = (membersIntegers others).length
  | .nil => rfl
  | .cons key first alike => by
    rw [membersIntegers,membersIntegers,List.length_append,List.length_append,first.length_integers,
      alike.length_integers]

end

end Json

def Decimal.isNumberChar (c : Char) : Bool := isNumeric c || c.isAlpha

namespace Term

open Decimal (isNumberChar)

def IsNumeral (term : Term) : Prop := term.chars.all isNumberChar = true

private theorem isNumeral_of_all_isNumeric {term : Term}
    (numeric : term.chars.all isNumeric = true) : term.IsNumeral := by
  rw [List.all_eq_true] at numeric
  rw [IsNumeral,List.all_eq_true]
  intro c inside
  rw [isNumberChar,numeric c inside,Bool.true_or]

theorem isNumeral_int (n : Int) : (int n).IsNumeral :=
  isNumeral_of_all_isNumeric (Decimal.all_isNumeric_ofInt n)

private theorem isNumeral_float (value : Decimal.Double) : (float value).IsNumeral := by
  cases finite : value.isFinite with
  | true => exact isNumeral_of_all_isNumeric (Decimal.Double.all_isNumeric_chars finite)
  | false =>
    cases value with
    | finite negative mantissa exponent => cases finite
    | infinite negative => cases negative <;> rfl
    | nan => rfl

theorem isNumeral_ofInteger (n : Int) : (ofInteger n).IsNumeral := by
  rw [ofInteger]
  split
  · exact isNumeral_int n
  · exact isNumeral_float _

end Term

namespace Json

open Decimal (isNumberChar)

variable {f g : Int → Term}

def numerals (integer : Int → Term) (row : List Int) : List (List Char) :=
  row.map fun n => (integer n).chars

private theorem numerals_append (first rest : List Int) :
    numerals f (first ++ rest) = numerals f first ++ numerals f rest :=
  List.map_append

private theorem length_numerals (row : List Int) : (numerals f row).length = row.length :=
  List.length_map _

private theorem numerals_append_eq_iff {first second rest other : List Int}
    (same : first.length = second.length) :
    numerals f (first ++ rest) = numerals g (second ++ other) ↔
      numerals f first = numerals g second ∧ numerals f rest = numerals g other := by
  rw [numerals_append,numerals_append]
  constructor
  · intro equal
    exact List.append_inj equal (by rw [length_numerals,length_numerals,same])
  · rintro ⟨front,back⟩
    rw [front,back]

theorem ends_separator (c : Char) (rest : List Char) (apart : isNumberChar c = false) :
    Ends (!isNumberChar ·) (c :: rest) :=
  ends_cons (by rw [apart]; rfl)

mutual

/-- Texts of one shape, with anything behind that cannot go on with a number, are the same exactly if the
numerals in them are. -/
theorem Alike.chars_append_iff {first second : Json} (alike : Alike first second)
    (left : ∀ n, (f n).IsNumeral) (right : ∀ n, (g n).IsNumeral) {rest other : List Char}
    (ends : Ends (!isNumberChar ·) rest) (stops : Ends (!isNumberChar ·) other) :
    (first.termWith f).chars ++ rest = (second.termWith g).chars ++ other ↔
      numerals f first.integers = numerals g second.integers ∧ rest = other := by
  match alike with
  | .null | .bool value | .real value | .string value => simp [termWith,integers,numerals]
  | .integer n m =>
    simp only [termWith,integers,numerals,List.map_cons,List.map_nil,List.cons.injEq,and_true]
    refine ⟨Text.append_inj_of_all (left n) (right m) ends stops,?_⟩
    rintro ⟨equal,remaining⟩
    rw [equal,remaining]
  | .array alike =>
    simp only [termWith,integers,Term.chars,List.cons_append,List.append_assoc,List.cons.injEq,true_and,
      List.nil_append]
    rw [alike.chars_append_iff left right (ends_separator _ _ rfl) (ends_separator _ _ rfl),
      List.cons.injEq]
    simp only [true_and]
  | .object alike =>
    simp only [termWith,integers,Term.chars,List.cons_append,List.append_assoc,List.cons.injEq,true_and,
      List.nil_append]
    rw [alike.chars_append_iff left right (ends_separator _ _ rfl) (ends_separator _ _ rfl),
      List.cons.injEq]
    simp only [true_and]

theorem ItemsAlike.chars_append_iff {items others : List Json} (alike : ItemsAlike items others)
    (left : ∀ n, (f n).IsNumeral) (right : ∀ n, (g n).IsNumeral) {rest other : List Char}
    (ends : Ends (!isNumberChar ·) rest) (stops : Ends (!isNumberChar ·) other) :
    Term.listChars (itemsWith f items) ++ rest = Term.listChars (itemsWith g others) ++ other ↔
      numerals f (itemsIntegers items) = numerals g (itemsIntegers others) ∧ rest = other := by
  match alike with
  | .nil => simp [itemsWith,itemsIntegers,numerals]
  | .cons first .nil =>
    simp only [itemsWith,Term.listChars,itemsIntegers,List.append_nil]
    exact first.chars_append_iff left right ends stops
  | .cons first (.cons second alike) =>
    -- a comma ends the first item, so that it can be told from the rest on both sides
    have more := (ItemsAlike.cons second alike).chars_append_iff left right ends stops
    simp only [itemsWith,Term.listChars,List.append_assoc,List.cons_append] at more ⊢
    rw [first.chars_append_iff left right (ends_separator _ _ rfl) (ends_separator _ _ rfl),
      List.cons.injEq,more]
    simp only [true_and,← and_assoc]
    exact and_congr_left' (numerals_append_eq_iff first.length_integers).symm

theorem MembersAlike.chars_append_iff {members others : List (String × Json)}
    (alike : MembersAlike members others)
    (left : ∀ n, (f n).IsNumeral) (right : ∀ n, (g n).IsNumeral) {rest other : List Char}
    (ends : Ends (!isNumberChar ·) rest) (stops : Ends (!isNumberChar ·) other) :
    Term.memberChars (membersWith f members) ++ rest = Term.memberChars (membersWith g others) ++ other ↔
      numerals f (membersIntegers members) = numerals g (membersIntegers others) ∧ rest = other := by
  match alike with
  | .nil => simp [membersWith,membersIntegers,numerals]
  | .cons key first .nil =>
    simp only [membersWith,Term.memberChars,membersIntegers,List.append_nil,List.append_assoc,
      List.cons_append,List.append_cancel_left_eq,List.cons.injEq,true_and]
    exact first.chars_append_iff left right ends stops
  | .cons key first (.cons next second alike) =>
    have more := (MembersAlike.cons next second alike).chars_append_iff left right ends stops
    simp only [membersWith,Term.memberChars,List.append_assoc,List.cons_append,
      List.append_cancel_left_eq,List.cons.injEq,true_and] at more ⊢
    rw [first.chars_append_iff left right (ends_separator _ _ rfl) (ends_separator _ _ rfl),
      List.cons.injEq,more]
    simp only [true_and,← and_assoc]
    exact and_congr_left' (numerals_append_eq_iff first.length_integers).symm

end

theorem Alike.text_eq_iff {first second : Json} (alike : Alike first second)
    (left : ∀ n, (f n).IsNumeral) (right : ∀ n, (g n).IsNumeral) :
    (first.termWith f).text = (second.termWith g).text ↔
      numerals f first.integers = numerals g second.integers := by
  have written := alike.chars_append_iff left right ends_nil ends_nil
  rw [List.append_nil,List.append_nil] at written
  rw [Term.text,Term.text,String.ofList_inj,written]
  exact and_iff_left rfl

end Json

def Decimal.fitsWord (n : Int) : Bool := fitsSigned n || (0 ≤ n && fitsUnsigned n.natAbs)

namespace Term

open Decimal (Double fitsWord)

/-- As a submitted value the integer is written with its own digits. -/
def IsExact (n : Int) : Prop := (ofInteger n).chars = Decimal.ofInt n

variable {n x y : Int}

private theorem fitsSigned_iff (word : fitsWord n = true) : fitsSigned n = true ↔ n < 2 ^ 63 := by
  simp [fitsWord,fitsSigned,fitsUnsigned] at word ⊢
  omega

theorem isExact_of_lt (word : fitsWord n = true) (small : n < 2 ^ 63) : IsExact n := by
  rw [IsExact,ofInteger,if_pos ((fitsSigned_iff word).mpr small)]
  rfl

theorem chars_ofInteger_of_le (word : fitsWord n = true) (large : 2 ^ 63 ≤ n) :
    (ofInteger n).chars = (Double.ofInt n).chars := by
  have wide : ¬ fitsSigned n = true := fun fits => absurd ((fitsSigned_iff word).mp fits) (by omega)
  rw [ofInteger,if_neg wide]
  rfl

theorem exists_nat_of_le (word : fitsWord n = true) (large : 2 ^ 63 ≤ n) :
    ∃ m : Nat, n = m ∧ 2 ^ 63 ≤ m ∧ m < 2 ^ 64 := by
  refine ⟨n.natAbs,?_⟩
  simp [fitsWord,fitsSigned,fitsUnsigned] at word
  omega

private theorem fitsWord_natCast {m : Nat} (bounded : m < 2 ^ 64) : fitsWord m = true := by
  simp [fitsWord,fitsUnsigned]
  omega

private theorem exists_shown_of_le (word : fitsWord n = true) (large : 2 ^ 63 ≤ n) :
    ∃ shown : Int, (ofInteger n).chars = Decimal.ofInt shown ∧ 2 ^ 63 ≤ shown := by
  rw [chars_ofInteger_of_le word large]
  obtain ⟨m,rfl,wide,bounded⟩ := exists_nat_of_le word large
  obtain ⟨shown,written,beyond⟩ := Double.exists_chars_of_large wide bounded
  exact ⟨shown,written,by omega⟩

/-- Below 2 ^ 63 an integer keeps its digits. From there on it does if it is a multiple of ten thousand, or
a multiple of a thousand near its double, where no multiple of ten thousand has the same double. -/
theorem isExact_iff (word : fitsWord n = true) : IsExact n ↔ n < 2 ^ 63 ∨ 10000 ∣ n ∨
    1000 ∣ n ∧ (n % 2048 < 500 ∨ 1548 < n % 2048) ∧
      ∀ m, fitsWord m = true → 2 ^ 63 ≤ m → 10000 ∣ m → Double.ofInt m ≠ Double.ofInt n := by
  rcases Int.lt_or_le n (2 ^ 63) with small | large
  · exact ⟨fun _ => .inl small,fun _ => isExact_of_lt word small⟩
  · rw [IsExact,chars_ofInteger_of_le word large]
    obtain ⟨k,rfl,wide,bounded⟩ := exists_nat_of_le word large
    have digits : Decimal.ofInt k = Decimal.ofNat k := rfl
    rw [digits,Double.chars_eq_ofNat_iff wide bounded]
    constructor
    · rintro (multiple | ⟨thousand,nearby,none⟩)
      · exact .inr (.inl (by omega))
      · refine .inr (.inr ⟨by omega,by omega,?_⟩)
        intro m otherWord otherLarge multiple
        obtain ⟨j,rfl,otherWide,otherBounded⟩ := exists_nat_of_le otherWord otherLarge
        exact none j otherWide otherBounded (by omega)
    · rintro (small | multiple | ⟨thousand,nearby,none⟩)
      · omega
      · exact .inl (by omega)
      · refine .inr ⟨by omega,by omega,?_⟩
        intro j otherWide otherBounded multiple
        exact none j (fitsWord_natCast otherBounded) (by omega) (by omega)

example : IsExact 9223372036854776000 ∧ ¬ IsExact 9223372036854777000 := by
  unfold IsExact
  decide +kernel

theorem chars_ofInteger_eq_iff (first : fitsWord x = true) (second : fitsWord y = true) :
    (ofInteger x).chars = (ofInteger y).chars ↔
      x = y ∨ (2 ^ 63 ≤ x ∧ 2 ^ 63 ≤ y ∧ Double.ofInt x = Double.ofInt y) := by
  have apart {m n : Int} (small : fitsWord m = true) (word : fitsWord n = true) (below : m < 2 ^ 63)
      (large : 2 ^ 63 ≤ n) : (ofInteger m).chars ≠ (ofInteger n).chars := by
    obtain ⟨shown,written,beyond⟩ := exists_shown_of_le word large
    rw [isExact_of_lt small below,written]
    intro same
    have equal := Decimal.ofInt_injective same
    omega
  constructor
  · intro same
    rcases Int.lt_or_le x (2 ^ 63) with small | large <;>
      rcases Int.lt_or_le y (2 ^ 63) with below | above
    · rw [isExact_of_lt first small,isExact_of_lt second below] at same
      exact .inl (Decimal.ofInt_injective same)
    · exact absurd same (apart first second small above)
    · exact absurd same.symm (apart second first below large)
    · rw [chars_ofInteger_of_le first large,chars_ofInteger_of_le second above] at same
      obtain ⟨m,rfl,wide,bounded⟩ := exists_nat_of_le first large
      obtain ⟨k,rfl,otherWide,otherBounded⟩ := exists_nat_of_le second above
      exact .inr ⟨large,above,Double.ofInt_eq_of_chars_eq wide bounded otherWide otherBounded same⟩
  · rintro (rfl | ⟨large,above,same⟩)
    · rfl
    · rw [chars_ofInteger_of_le first large,chars_ofInteger_of_le second above,same]

end Term

namespace Json

open Decimal (fitsWord)
open Term (IsExact isNumeral_int isNumeral_ofInteger chars_ofInteger_eq_iff)

/-- The text of a submitted value shows all its integers with their own digits exactly if each of them is
written so: all those below 2 ^ 63, and of the others the multiples of ten thousand, and those of a thousand
that are near a double which no multiple of ten thousand has. A value that differs in one integer has the
same text only if both integers are beyond 2 ^ 63 and have the same double. -/
theorem integers_exact_below_and_rounded_above (json : Json)
    (words : ∀ n ∈ json.integers, fitsWord n = true) :
    ((Term.ofJson json).text = (json.termWith .int).text ↔ ∀ n ∈ json.integers, IsExact n) ∧
    (∀ n ∈ json.integers, IsExact n ↔ n < 2 ^ 63 ∨ 10000 ∣ n ∨
      1000 ∣ n ∧ (n % 2048 < 500 ∨ 1548 < n % 2048) ∧
        ∀ m, fitsWord m = true → 2 ^ 63 ≤ m → 10000 ∣ m →
          Decimal.Double.ofInt m ≠ Decimal.Double.ofInt n) ∧
    ∀ other : Json, Alike json other → ∀ before after x y,
      json.integers = before ++ x :: after → other.integers = before ++ y :: after →
      fitsWord y = true →
      ((Term.ofJson json).text = (Term.ofJson other).text ↔
        x = y ∨ (2 ^ 63 ≤ x ∧ 2 ^ 63 ≤ y ∧ Decimal.Double.ofInt x = Decimal.Double.ofInt y)) := by
  refine ⟨?_,fun n inside => Term.isExact_iff (words n inside),?_⟩
  · rw [← termWith_ofInteger,json.alike_refl.text_eq_iff isNumeral_ofInteger isNumeral_int,
      numerals,numerals,List.map_inj_left]
    exact Iff.rfl
  · intro other alike before after x y split otherSplit otherWord
    have word : fitsWord x = true := words x (by rw [split]; exact List.mem_append_cons_self)
    rw [← termWith_ofInteger,← termWith_ofInteger,
      alike.text_eq_iff isNumeral_ofInteger isNumeral_ofInteger,split,otherSplit,
      ← chars_ofInteger_eq_iff word otherWord]
    simp [numerals]

def idsSample (first second : Int) : Json :=
  .object [("id",.integer first),("more",.array [.null,.integer second])]

private theorem idsSample_alike (first second other : Int) :
    Alike (idsSample first second) (idsSample first other) :=
  .object (.cons "id" (.integer first first)
    (.cons "more" (.array (.cons .null (.cons (.integer second other) .nil))) .nil))

theorem idsSample_texts :
    (Term.ofJson (idsSample (2 ^ 63 - 1) 18446744073709550000)).text =
      ((idsSample (2 ^ 63 - 1) 18446744073709550000).termWith .int).text ∧
    (Term.ofJson (idsSample 7 (2 ^ 64 - 1))).text ≠ ((idsSample 7 (2 ^ 64 - 1)).termWith .int).text ∧
    (Term.ofJson (idsSample 7 (2 ^ 64 - 1))).text = (Term.ofJson (idsSample 7 (2 ^ 64 - 2))).text ∧
    (Term.ofJson (idsSample 7 (2 ^ 64 - 1))).text ≠ (Term.ofJson (idsSample 7 (2 ^ 63 - 1))).text := by
  have rounded := integers_exact_below_and_rounded_above (idsSample (2 ^ 63 - 1) 18446744073709550000)
    (by decide)
  have last := integers_exact_below_and_rounded_above (idsSample 7 (2 ^ 64 - 1)) (by decide)
  have single (other : Int) (word : fitsWord other = true) :=
    last.2.2 (idsSample 7 other) (idsSample_alike 7 _ other) [7] [] _ other rfl rfl word
  refine ⟨rounded.1.mpr ?_,?_,?_,?_⟩
  · intro n inside
    rw [rounded.2.1 n inside]
    rcases List.mem_cons.mp inside with rfl | later
    · exact .inl (by decide)
    · cases List.mem_singleton.mp later
      exact .inr (.inl (by decide))
  · rw [Ne,last.1]
    intro all
    have inside : 2 ^ 64 - 1 ∈ (idsSample 7 (2 ^ 64 - 1)).integers := .tail _ (.head _)
    rcases (last.2.1 _ inside).mp (all _ inside) with small | multiple | ⟨multiple,_⟩
    · exact absurd small (by decide)
    · exact absurd multiple (by decide)
    · exact absurd multiple (by decide)
  · rw [single _ rfl]
    exact .inr ⟨by decide,by decide,by decide +kernel⟩
  · rw [Ne,single _ rfl]
    decide

theorem ofJson_merges_last_words :
    fitsWord 18446744073709551615 = true ∧ fitsWord 18446744073709551614 = true ∧
    Alike (.integer 18446744073709551615) (.integer 18446744073709551614) ∧
    (Term.ofJson (.integer 18446744073709551615)).text = "18446744073709552000" ∧
    (Term.ofJson (.integer 18446744073709551614)).text = "18446744073709552000" :=
  ⟨rfl,rfl,.integer _ _,by decide +kernel,by decide +kernel⟩

end Json

end FlatQuery
