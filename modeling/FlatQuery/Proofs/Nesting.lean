import FlatQuery.Proofs.Cutting
import FlatQuery.Term.Printer

/-! How written terms nest. A reader leaves the text of a step at the level where it came in and
meets no separator at the top on the way, provided that names are names and that each key does the
same inside brackets. -/

namespace FlatQuery

namespace Text

/-- A reader that comes in with `depth` brackets open leaves with as many, and meets no separator
outside all of them. -/
structure Keeps (depth : Nat) (cs : List Char) : Prop where
  closed : (Cursor.plain depth).run cs = .plain depth
  hidden : ∀ separator ∈ separators, ¬ Exposes separator (.plain depth) cs

/-- Keeps inside any bracket. -/
def Balanced (cs : List Char) : Prop := ∀ depth, Keeps (depth + 1) cs

def isFlat (c : Char) : Bool := c != '"' && !Cursor.isOpening c && !Cursor.isClosing c

variable {depth : Nat} {first second cs : List Char} {c : Char}

theorem keeps_nil : Keeps depth [] := ⟨rfl,fun _ _ => not_exposes_nil⟩

theorem Keeps.append (before : Keeps depth first) (after : Keeps depth second) :
    Keeps depth (first ++ second) where
  closed := by rw [Cursor.run_append,before.closed,after.closed]
  hidden separator inside := by
    rw [exposes_append_iff,before.closed,not_or]
    exact ⟨before.hidden separator inside,after.hidden separator inside⟩

private theorem next_of_isFlat (flat : isFlat c = true) :
    (Cursor.plain depth).next c = .plain depth := by
  simp only [isFlat,Bool.and_eq_true,bne_iff_ne,Bool.not_eq_true'] at flat
  simp [Cursor.next,flat]

theorem keeps_singleton (flat : isFlat c = true) (apart : depth ≠ 0 ∨ c ∉ separators) :
    Keeps depth [c] where
  closed := next_of_isFlat flat
  hidden separator inside := by
    rw [exposes_cons_iff,not_or]
    refine ⟨?_,not_exposes_nil⟩
    intro here
    rcases apart with deep | other
    · exact deep (Cursor.plain.inj here.1)
    · exact other (here.2 ▸ inside)

private theorem keeps_of_forall_mem (each : ∀ c ∈ cs, Keeps depth [c]) : Keeps depth cs := by
  induction cs with
  | nil => exact keeps_nil
  | cons c cs ih =>
    rw [List.forall_mem_cons] at each
    exact each.1.append (ih each.2)

theorem balanced_of_isFlat (flat : cs.all isFlat = true) : Balanced cs := by
  rw [List.all_eq_true] at flat
  intro depth
  exact keeps_of_forall_mem fun c inside => keeps_singleton (flat c inside) (Or.inl (by omega))

theorem Balanced.join {joint : Char} (before : Balanced first) (flat : isFlat joint = true)
    (after : Balanced second) : Balanced (first ++ joint :: second) := by
  intro depth
  have between : Keeps (depth + 1) [joint] := keeps_singleton flat (Or.inl (by omega))
  exact (before depth).append (between.append (after depth))

private theorem next_of_isOpening (opens : Cursor.isOpening c = true) :
    (Cursor.plain depth).next c = .plain (depth + 1) := by
  simp only [Cursor.isOpening,Bool.or_eq_true,beq_iff_eq] at opens
  rcases opens with ((rfl | rfl) | rfl) | rfl
  all_goals rfl

private theorem next_of_isClosing (closes : Cursor.isClosing c = true) :
    (Cursor.plain (depth + 1)).next c = .plain depth := by
  simp only [Cursor.isClosing,Bool.or_eq_true,beq_iff_eq] at closes
  rcases closes with ((rfl | rfl) | rfl) | rfl
  all_goals rfl

private theorem not_isOpening_of_mem_separators (inside : c ∈ separators) :
    Cursor.isOpening c = false := by
  have none : (separators.all fun separator => !Cursor.isOpening separator) = true := rfl
  simpa using List.all_eq_true.mp none c inside

theorem Balanced.keeps_between {opening closing : Char} (opens : Cursor.isOpening opening = true)
    (closes : Cursor.isClosing closing = true) (inside : Balanced cs) :
    Keeps depth (opening :: cs ++ [closing]) where
  closed := by
    rw [List.cons_append,Cursor.run_cons,next_of_isOpening opens,Cursor.run_append,
      (inside depth).closed,Cursor.run_cons,next_of_isClosing closes,Cursor.run_nil]
  hidden separator present := by
    rw [List.cons_append,exposes_cons_iff,next_of_isOpening opens,exposes_append_iff,
      (inside depth).closed,exposes_cons_iff]
    intro exposed
    rcases exposed with ⟨_,rfl⟩ | shown | ⟨deep,_⟩ | beyond
    · rw [not_isOpening_of_mem_separators present] at opens
      cases opens
    · exact (inside depth).hidden separator present shown
    · cases deep
    · exact not_exposes_nil beyond

private theorem quoted_flatMap_escapeQuote (depth : Nat) (cs : List Char) :
    (Cursor.quoted depth).run (cs.flatMap escapeQuote) = .quoted depth ∧
      ∀ separator, ¬ Exposes separator (.quoted depth) (cs.flatMap escapeQuote) := by
  induction cs with
  | nil => exact ⟨rfl,fun _ => not_exposes_nil⟩
  | cons c cs ih =>
    rw [List.flatMap_cons]
    by_cases special : c = '"' ∨ c = '\\'
    · simpa [escapeQuote,special,exposes_cons_iff,Cursor.next,Cursor.top] using ih
    · have plain : c ≠ '"' ∧ c ≠ '\\' := not_or.mp special
      simpa [escapeQuote,exposes_cons_iff,Cursor.next,Cursor.top,plain] using ih

private theorem keeps_quote (cs : List Char) : Keeps depth (quote cs) where
  closed := by
    have inside := (quoted_flatMap_escapeQuote depth cs).1
    simp [quote,Cursor.next,inside]
  hidden separator present := by
    have inside := quoted_flatMap_escapeQuote depth cs
    have other : '"' ≠ separator := by
      intro same
      subst same
      revert present
      decide
    simp [quote,exposes_cons_iff,exposes_append_iff,Cursor.next,Cursor.top,inside,other,not_exposes_nil]

private theorem isFlat_of_isNamePart (part : isNamePart c = true) :
    isFlat c = true ∧ c ∉ separators := by
  have apart (mark : Char) (special : isNamePart mark = false) : c ≠ mark := by
    intro same
    rw [same,special] at part
    cases part
  simp (disch := decide) [isFlat,Cursor.isOpening,Cursor.isClosing,separators,apart]

theorem isNamePart_of_isName (named : isName cs = true) : ∀ c ∈ cs, isNamePart c = true := by
  cases cs with
  | nil => cases named
  | cons c cs =>
    simp only [isName,Bool.and_eq_true,List.all_eq_true] at named
    rw [List.forall_mem_cons]
    refine ⟨?_,named.2⟩
    have start := named.1
    simp only [isNameStart,isNamePart,Char.isAlphanum,Bool.or_eq_true] at start ⊢
    rcases start with letter | underscore
    · exact Or.inl (Or.inl letter)
    · exact Or.inr underscore

theorem keeps_of_isName (named : isName cs = true) : Keeps depth cs := by
  apply keeps_of_forall_mem
  intro c inside
  obtain ⟨flat,other⟩ := isFlat_of_isNamePart (isNamePart_of_isName named c inside)
  exact keeps_singleton flat (Or.inr other)

theorem balanced_of_isName (named : isName cs = true) : Balanced cs :=
  fun _ => keeps_of_isName named

end Text

namespace Decimal

open Text (isFlat)

def isNumeric (c : Char) : Bool := c.isDigit || c == '.' || c == '-'

private theorem isFlat_of_isNumeric {c : Char} (numeric : isNumeric c = true) :
    isFlat c = true := by
  rw [isNumeric,Bool.or_eq_true,Bool.or_eq_true,beq_iff_eq,beq_iff_eq] at numeric
  rcases numeric with (digit | rfl) | rfl
  · have part : Text.isNamePart c = true := by simp [Text.isNamePart,Char.isAlphanum,digit]
    exact (Text.isFlat_of_isNamePart part).1
  · rfl
  · rfl

private theorem all_isFlat_of_all_isNumeric {cs : List Char} (numeric : cs.all isNumeric = true) :
    cs.all isFlat = true := by
  rw [List.all_eq_true] at numeric ⊢
  intro c inside
  exact isFlat_of_isNumeric (numeric c inside)

theorem all_isNumeric_ofNat (n : Nat) : (ofNat n).all isNumeric = true := by
  rw [List.all_eq_true]
  intro c inside
  have digit := Nat.isDigit_of_mem_toDigits (by decide) (by decide) inside
  rw [isNumeric,digit]
  rfl

theorem all_isNumeric_ofInt (value : Int) : (ofInt value).all isNumeric = true := by
  cases value with
  | ofNat n => exact all_isNumeric_ofNat n
  | negSucc n =>
    rw [ofInt,List.all_cons,all_isNumeric_ofNat]
    rfl

namespace Double

theorem all_isNumeric_of_subset {first second : List Char} (within : first ⊆ second)
    (numeric : second.all isNumeric = true) : first.all isNumeric = true := by
  rw [List.all_eq_true] at numeric ⊢
  intro c inside
  exact numeric c (within inside)

private theorem all_isNumeric_positional {digits : List Char}
    (numeric : digits.all isNumeric = true)
    (point : Int) : (positional digits point).all isNumeric = true := by
  have zeros (count : Nat) : (List.replicate count '0').all isNumeric = true := by
    rw [List.all_eq_true]
    intro c inside
    rw [List.eq_of_mem_replicate inside]
    rfl
  have front : (digits.take point.natAbs).all isNumeric = true :=
    all_isNumeric_of_subset (List.take_subset ..) numeric
  have back : (digits.drop point.natAbs).all isNumeric = true :=
    all_isNumeric_of_subset (List.drop_subset ..) numeric
  have mark : ['.'].all isNumeric = true := rfl
  have start : ['0','.'].all isNumeric = true := rfl
  unfold positional
  split
  · rw [List.all_append,List.all_append,start,zeros,numeric]
    rfl
  · split
    · rw [List.all_append,numeric,zeros]
      rfl
    · rw [List.all_append,List.all_append,front,mark,back]
      rfl

theorem Candidate.all_isNumeric_chars (candidate : Candidate) :
    candidate.chars.all isNumeric = true := by
  apply all_isNumeric_positional
  rw [List.all_reverse]
  refine all_isNumeric_of_subset (List.dropWhile_subset _) ?_
  rw [List.all_reverse]
  exact all_isNumeric_ofNat candidate.coefficient

theorem all_isNumeric_chars {value : Double} (finite : value.isFinite = true) :
    value.chars.all isNumeric = true := by
  cases value with
  | nan => cases finite
  | infinite negative => cases finite
  | finite negative mantissa exponent =>
    have signed : (sign negative).all isNumeric = true := by
      cases negative <;> rfl
    rw [chars,List.all_append,signed]
    split
    · rfl
    · exact Candidate.all_isNumeric_chars _

private theorem all_isFlat_chars (value : Double) : value.chars.all isFlat = true := by
  cases value with
  | nan => rfl
  | infinite negative => cases negative <;> rfl
  | finite negative mantissa exponent => exact all_isFlat_of_all_isNumeric (all_isNumeric_chars rfl)

end Double

end Decimal

mutual

/-- Names are names, and keys are balanced. -/
def Term.Tame : Term → Prop
  | .enum name => Text.isName name.toList = true
  | .list items => Term.ListTame items
  | .object members => Term.MembersTame members
  | .expression name => Text.isName name.toList = true
  | .call step => step.Tame
  | .null | .bool _ | .int _ | .float _ | .string _ => True

def Term.ListTame : List Term → Prop
  | [] => True
  | item :: items => item.Tame ∧ Term.ListTame items

def Term.MembersTame : List (String × Term) → Prop
  | [] => True
  | (key,term) :: members => Text.Balanced key.toList ∧ term.Tame ∧ Term.MembersTame members

def Step.Tame : Step → Prop
  | ⟨name,arguments,alias?,directives⟩ =>
    Text.isName name.toList = true ∧ Term.MembersTame arguments ∧
      (∀ other ∈ alias?, Text.isName other.toList = true) ∧ Directive.ListTame directives

def Directive.Tame : Directive → Prop
  | ⟨name,arguments⟩ => Text.isName name.toList = true ∧ Term.MembersTame arguments

def Directive.ListTame : List Directive → Prop
  | [] => True
  | directive :: directives => directive.Tame ∧ Directive.ListTame directives

end

theorem Term.listTame_iff {items : List Term} : ListTame items ↔ ∀ item ∈ items, item.Tame := by
  induction items with
  | nil => simp [ListTame]
  | cons item items ih => rw [ListTame,List.forall_mem_cons,ih]

theorem Directive.listTame_iff {directives : List Directive} :
    ListTame directives ↔ ∀ directive ∈ directives, directive.Tame := by
  induction directives with
  | nil => simp [ListTame]
  | cons directive directives ih => rw [ListTame,List.forall_mem_cons,ih]

theorem Directive.tame_iff {directive : Directive} :
    directive.Tame ↔ Text.isName directive.name.toList = true ∧ Term.MembersTame directive.arguments := by
  cases directive
  exact Iff.rfl

theorem Step.tame_iff {step : Step} :
    step.Tame ↔ Text.isName step.name.toList = true ∧ Term.MembersTame step.arguments ∧
      (∀ other ∈ step.alias?, Text.isName other.toList = true) ∧
      Directive.ListTame step.directives := by
  cases step
  exact Iff.rfl

open Text (Keeps Balanced)

private theorem Step.keeps_parenthesized {depth : Nat} (call : Bool) (arguments : Arguments)
    {written : List Char}
    (inside : Balanced written) : Keeps depth (parenthesized call arguments written) := by
  unfold parenthesized
  split
  · exact Text.keeps_nil
  · exact inside.keeps_between rfl rfl

private theorem Step.keeps_angled {depth : Nat} (directives : List Directive) {written : List Char}
    (inside : Balanced written) : Keeps depth (angled directives written) := by
  unfold angled
  split
  · exact Text.keeps_nil
  · exact inside.keeps_between rfl rfl

private theorem Step.keeps_aliasChars {depth : Nat} {alias? : Option String}
    (named : ∀ name ∈ alias?, Text.isName name.toList = true) : Keeps depth (aliasChars alias?) := by
  cases alias? with
  | none => exact Text.keeps_nil
  | some name =>
    have sign : Keeps depth ['@'] := Text.keeps_singleton rfl (Or.inr (by decide))
    exact sign.append (Text.keeps_of_isName (named name rfl))

private theorem Text.balanced_bareOrQuoted (cs : List Char) : Balanced (bareOrQuoted cs) := by
  intro depth
  unfold bareOrQuoted
  split
  next bare =>
    rw [isBareWord,Bool.and_eq_true] at bare
    exact keeps_of_isName bare.1
  next => exact keeps_quote cs

-- Terms are balanced inside the brackets of a step, and steps keep to themselves at any depth, so
-- that a call can stand inside a term.
mutual

theorem Term.balanced_chars : (term : Term) → term.Tame → Balanced term.chars
  | .null, _ => Text.balanced_of_isFlat rfl
  | .bool value, _ => Text.balanced_of_isFlat (by cases value <;> rfl)
  | .int value, _ =>
    Text.balanced_of_isFlat (Decimal.all_isFlat_of_all_isNumeric (Decimal.all_isNumeric_ofInt value))
  | .float value, _ => Text.balanced_of_isFlat value.all_isFlat_chars
  | .string value, _ => Text.balanced_bareOrQuoted value.toList
  | .enum _, tame => Text.balanced_of_isName tame
  | .list items, tame => fun _ => (Term.balanced_listChars items tame).keeps_between rfl rfl
  | .object members, tame => fun _ => (Term.balanced_memberChars members tame).keeps_between rfl rfl
  | .expression name, tame => by
    intro depth
    have mark : Keeps (depth + 1) ['%'] := Text.keeps_singleton rfl (Or.inr (by decide))
    have braced : Keeps (depth + 1) ('{' :: name.toList ++ ['}']) :=
      (Text.balanced_of_isName tame).keeps_between rfl rfl
    simpa [Term.chars] using (mark.append braced).append mark
  | .call step, tame => fun _ => step.keeps_charsAs true tame

theorem Term.balanced_listChars : (items : List Term) → Term.ListTame items →
    Balanced (Term.listChars items)
  | [], _ => fun _ => Text.keeps_nil
  | [item], tame => item.balanced_chars tame.1
  | item :: next :: items, tame =>
    (item.balanced_chars tame.1).join rfl (Term.balanced_listChars (next :: items) tame.2)

theorem Term.balanced_memberChars : (members : List (String × Term)) → Term.MembersTame members →
    Balanced (Term.memberChars members)
  | [], _ => fun _ => Text.keeps_nil
  | [(_,term)], tame => tame.1.join rfl (term.balanced_chars tame.2.1)
  | (_,term) :: next :: members, tame =>
    (tame.1.join rfl (term.balanced_chars tame.2.1)).join rfl
      (Term.balanced_memberChars (next :: members) tame.2.2)

private theorem Step.keeps_charsAs {depth : Nat} (call : Bool) : (step : Step) → step.Tame →
    Keeps depth (step.charsAs call)
  | ⟨name,arguments,alias?,directives⟩, tame => by
    obtain ⟨named,members,other,marks⟩ := tame
    have front : Keeps depth name.toList := Text.keeps_of_isName named
    have between : Keeps depth (Step.parenthesized call arguments (Term.memberChars arguments)) :=
      Step.keeps_parenthesized call arguments (Term.balanced_memberChars arguments members)
    have renamed : Keeps depth (Step.aliasChars alias?) := Step.keeps_aliasChars other
    have behind : Keeps depth (Step.angled directives (Directive.listChars directives)) :=
      Step.keeps_angled directives (Directive.balanced_listChars directives marks)
    exact ((front.append between).append renamed).append behind

theorem Directive.balanced_chars : (directive : Directive) → directive.Tame → Balanced directive.chars
  | ⟨_,arguments⟩, tame => fun _ => (Text.keeps_of_isName tame.1).append
    (Step.keeps_parenthesized false arguments (Term.balanced_memberChars arguments tame.2))

theorem Directive.balanced_listChars : (directives : List Directive) →
    Directive.ListTame directives → Balanced (Directive.listChars directives)
  | [], _ => fun _ => Text.keeps_nil
  | [directive], tame => directive.balanced_chars tame.1
  | directive :: next :: directives, tame =>
    (directive.balanced_chars tame.1).join rfl
      (Directive.balanced_listChars (next :: directives) tame.2)

end

theorem Step.keeps_chars {depth : Nat} {step : Step} (tame : step.Tame) : Keeps depth step.chars :=
  step.keeps_charsAs false tame

end FlatQuery
