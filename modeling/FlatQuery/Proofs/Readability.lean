import FlatQuery.Proofs.Spelling

/-! Queries can be read in one way only. Two batches with the same text have the same entries,
paths, steps and terms, except that an enumeration value is written like a string. Terms are told
apart by the character they start with, and words from calls by the bracket behind the name. -/

namespace FlatQuery

open Text (Ends Begins Legible isName isNamePart isNameStart isBareWord)

section Shapes

/-- What the first character of a term tells about it. -/
inductive Shape where
  | word | number | quoted | list | object | expression
deriving DecidableEq

def Shape.ofChar (c : Char) : Shape :=
  if c = '[' then .list
  else if c = '{' then .object
  else if c = '%' then .expression
  else if c = '"' then .quoted
  else if isNameStart c then .word
  else .number

def Term.shape : Term → Shape
  | .null | .bool _ | .enum _ | .call _ => .word
  | .int _ | .float _ => .number
  | .string value => if isBareWord value.toList then .word else .quoted
  | .list _ => .list
  | .object _ => .object
  | .expression _ => .expression

def Shape.Heads (shape : Shape) (cs : List Char) : Prop :=
  ∃ c ∈ cs.head?, Shape.ofChar c = shape ∧ Text.isStop c = false

private theorem Shape.ofChar_of_isNameStart {c : Char} (start : isNameStart c = true) :
    ofChar c = .word := by
  have apart (mark : Char) (special : isNameStart mark = false) : c ≠ mark := by
    intro same
    rw [same,special] at start
    cases start
  simp (disch := decide) [ofChar,apart,start]

theorem Shape.heads_of_isName {cs : List Char} (named : isName cs = true) (rest : List Char) :
    Shape.word.Heads (cs ++ rest) := by
  obtain ⟨c,inside,other⟩ := Text.begins_of_isName named
  obtain ⟨d,more,rfl,start⟩ := Text.exists_cons_of_isName named
  cases inside
  exact ⟨c,rfl,ofChar_of_isNameStart start,other⟩

private theorem Text.not_isNameStart_of_isDigit {c : Char} (digit : c.isDigit = true) :
    isNameStart c = false := by
  rw [Bool.eq_false_iff]
  intro start
  have above := (bounds_of_isNameStart start).1
  obtain ⟨_,high⟩ := Bool.and_eq_true_iff.mp digit
  have below : c.toNat ≤ 57 := of_decide_eq_true high
  omega

private theorem Shape.heads_of_isDigit {c : Char} (digit : c.isDigit = true) (cs : List Char) :
    Shape.number.Heads (c :: cs) := by
  have apart (mark : Char) (special : mark.isDigit = false) : c ≠ mark := by
    intro same
    rw [same,special] at digit
    cases digit
  have other := Text.not_isNameStart_of_isDigit digit
  refine ⟨c,rfl,?_,?_⟩
  · simp (disch := decide) [ofChar,apart,other]
  · simp (disch := decide) [Text.isStop,Text.anyOf,Text.stops,apart]

private theorem Shape.heads_ofInt (value : Int) : Shape.number.Heads (Decimal.ofInt value) := by
  cases value with
  | ofNat n =>
    obtain ⟨c,cs,digits⟩ := List.exists_cons_of_ne_nil (Nat.toDigits_ne_nil (n := n) (b := 10))
    have digit : c.isDigit = true := Decimal.isDigit_of_mem_ofNat (n := n) (by
      rw [Decimal.ofNat,digits]
      simp)
    rw [Decimal.ofInt,Decimal.ofNat,digits]
    exact heads_of_isDigit digit cs
  | negSucc n => exact ⟨'-',rfl,rfl,rfl⟩

theorem Term.heads_chars {term : Term} (own : term.isWellFormed = true) :
    term.shape.Heads term.chars := by
  cases term with
  | null => exact ⟨'n',rfl,rfl,rfl⟩
  | bool value =>
    cases value with
    | false => exact ⟨'f',rfl,rfl,rfl⟩
    | true => exact ⟨'t',rfl,rfl,rfl⟩
  | int value => exact Shape.heads_ofInt value
  | float value => cases own
  | string value =>
    rw [shape,chars,Text.bareOrQuoted]
    split
    next bare =>
      rw [isBareWord,Bool.and_eq_true] at bare
      simpa using Shape.heads_of_isName bare.1 []
    next => exact ⟨'"',rfl,rfl,rfl⟩
  | enum name =>
    rw [isWellFormed,isBareWord,Bool.and_eq_true] at own
    simpa [chars,shape] using Shape.heads_of_isName own.1 []
  | list items => exact ⟨'[',rfl,rfl,rfl⟩
  | object members => exact ⟨'{',rfl,rfl,rfl⟩
  | expression name => exact ⟨'%',rfl,rfl,rfl⟩
  | call step =>
    rw [chars,Step.charsAs_eq_append,List.append_assoc,List.append_assoc]
    exact Shape.heads_of_isName (Step.isWellFormed_iff.mp own).1 _

private theorem Shape.Heads.eq_of_append_eq {first second : Shape} {cs ds rest other : List Char}
    (heads : first.Heads cs) (leads : second.Heads ds) (same : cs ++ rest = ds ++ other) :
    first = second := by
  obtain ⟨c,inside,own,_⟩ := heads
  obtain ⟨d,within,their,_⟩ := leads
  have equal := congrArg List.head? same
  rw [List.head?_append,List.head?_append,inside,within] at equal
  cases equal
  exact own.symm.trans their

end Shapes

namespace Term

def ofWord (cs : List Char) : Term :=
  if cs = "null".toList then .null
  else if cs = "true".toList then .bool true
  else if cs = "false".toList then .bool false
  else .string (String.ofList cs)

structure IsWord (term : Term) : Prop where
  named : isName term.chars = true
  shown : term.withoutEnums = ofWord term.chars

theorem ofWord_of_isBareWord {value : String} (bare : isBareWord value.toList = true) :
    isName value.toList = true ∧ Term.string value = ofWord value.toList := by
  simp only [isBareWord,Text.keywords,Bool.and_eq_true,Bool.not_eq_true',List.contains_eq_mem,
    decide_eq_false_iff_not,List.mem_cons,List.not_mem_nil,or_false,not_or] at bare
  obtain ⟨named,notTrue,notFalse,notNull⟩ := bare
  refine ⟨named,?_⟩
  rw [ofWord,if_neg notNull,if_neg notTrue,if_neg notFalse,String.ofList_toList]

def Fits (term : Term) : Shape → Prop
  | .word => term.IsWord ∨ ∃ step, term = .call step
  | .number => ∃ value, term = .int value
  | .quoted => ∃ value, term = .string value ∧ isBareWord value.toList = false
  | .list => ∃ items, term = .list items
  | .object => ∃ members, term = .object members
  | .expression => ∃ name, term = .expression name

private theorem fits_shape {term : Term} (own : term.isWellFormed = true) :
    term.Fits term.shape := by
  cases term with
  | null => exact Or.inl ⟨rfl,rfl⟩
  | bool value =>
    cases value with
    | false => exact Or.inl ⟨rfl,rfl⟩
    | true => exact Or.inl ⟨rfl,rfl⟩
  | int value => exact ⟨value,rfl⟩
  | float value => cases own
  | string value =>
    rw [shape]
    split
    next bare =>
      obtain ⟨named,shown⟩ := ofWord_of_isBareWord bare
      have written : (Term.string value).chars = value.toList := if_pos bare
      exact Or.inl ⟨by rw [written,named],by rw [written,← shown,withoutEnums]⟩
    next quoted => exact ⟨value,rfl,by simpa using quoted⟩
  | enum name =>
    obtain ⟨named,shown⟩ := ofWord_of_isBareWord own
    exact Or.inl ⟨named,shown⟩
  | list items => exact ⟨items,rfl⟩
  | object members => exact ⟨members,rfl⟩
  | expression name => exact ⟨name,rfl⟩
  | call step => exact Or.inr ⟨step,rfl⟩

theorem fits_of_append_eq {term other : Term} {rest behind : List Char}
    (own : term.isWellFormed = true) (allowed : other.isWellFormed = true)
    (same : term.chars ++ rest = other.chars ++ behind) : other.Fits term.shape := by
  rw [(heads_chars own).eq_of_append_eq (heads_chars allowed) same]
  exact fits_shape allowed

private theorem IsWord.append_ne {term : Term} (word : term.IsWord) {step : Step}
    (allowed : step.isWellFormed = true) {rest behind : List Char} (ends : Ends Text.isStop rest) :
    term.chars ++ rest ≠ (Term.call step).chars ++ behind := by
  intro same
  obtain ⟨tail,written⟩ := step.exists_charsAs_true
  have named := (Step.isWellFormed_iff.mp allowed).1
  rw [chars,written,List.append_assoc,List.cons_append] at same
  obtain ⟨_,remaining⟩ := Text.append_inj_of_all (Text.all_isNamePart word.named)
    (Text.all_isNamePart named) (ends.mono (Text.anyOf_imp rfl)) (Text.ends_cons rfl) same
  rw [remaining] at ends
  exact (Text.begins_cons rfl).not_ends ends

theorem legible_of_isWord {term : Term} (own : term.isWellFormed = true) (word : term.IsWord)
    (shaped : term.shape = .word) : term.IsLegible := by
  intro other allowed rest behind ends stops same
  have fits := fits_of_append_eq own allowed same
  rw [shaped] at fits
  rcases fits with alike | ⟨step,rfl⟩
  · obtain ⟨equal,remaining⟩ := Text.append_inj_of_all (Text.all_isNamePart word.named)
      (Text.all_isNamePart alike.named) (ends.mono (Text.anyOf_imp rfl))
      (stops.mono (Text.anyOf_imp rfl)) same
    exact ⟨by rw [word.shown,alike.shown,equal],remaining⟩
  · exact absurd same (word.append_ne allowed ends)

private theorem legible_call {step : Step} (own : step.isWellFormed = true)
    (legible : Legible Text.isStop (fun other : Step => other.isWellFormed = true)
      (Step.charsAs true) Step.withoutEnums step) : (Term.call step).IsLegible := by
  intro other allowed rest behind ends stops same
  have fits : other.Fits .word := fits_of_append_eq (by rwa [isWellFormed]) allowed same
  rcases fits with word | ⟨call,rfl⟩
  · exact absurd same.symm (word.append_ne own stops)
  · obtain ⟨shown,remaining⟩ := legible call allowed rest behind ends stops same
    exact ⟨congrArg Term.call shown,remaining⟩

private theorem legible_int (value : Int) : (Term.int value).IsLegible := by
  have digits (n : Nat) : (Decimal.ofNat n).all (fun c => c.isDigit || c == '-') = true := by
    rw [List.all_eq_true]
    intro c inside
    rw [Decimal.isDigit_of_mem_ofNat inside,Bool.true_or]
  have made (value : Int) : (Decimal.ofInt value).all (fun c => c.isDigit || c == '-') = true := by
    cases value with
    | ofNat n => exact digits n
    | negSucc n =>
      rw [Decimal.ofInt,List.all_cons,digits]
      rfl
  intro other allowed rest behind ends stops same
  have apart : Text.stops.all (fun c => !(c.isDigit || c == '-')) = true := rfl
  obtain ⟨number,rfl⟩ := fits_of_append_eq rfl allowed same
  obtain ⟨equal,remaining⟩ := Text.append_inj_of_all (made value) (made number)
    (ends.mono (Text.anyOf_imp apart)) (stops.mono (Text.anyOf_imp apart)) same
  exact ⟨by rw [Decimal.ofInt_injective equal],remaining⟩

private theorem legible_string (value : String) : (Term.string value).IsLegible := by
  have fits : (Term.string value).Fits (Term.string value).shape := fits_shape rfl
  cases bare : isBareWord value.toList with
  | true =>
    have shaped : (Term.string value).shape = .word := if_pos bare
    rw [shaped] at fits
    rcases fits with word | ⟨step,impossible⟩
    · exact legible_of_isWord rfl word shaped
    · cases impossible
  | false =>
    have quoted (text : String) (bare : isBareWord text.toList = false) :
        (Term.string text).shape = .quoted ∧ (Term.string text).chars = Text.quote text.toList := by
      simp [shape,chars,Text.bareOrQuoted,bare]
    intro other allowed rest behind ends stops same
    have alike := fits_of_append_eq rfl allowed same
    rw [(quoted value bare).1] at alike
    obtain ⟨text,rfl,unbare⟩ := alike
    rw [(quoted value bare).2,(quoted text unbare).2] at same
    obtain ⟨equal,remaining⟩ :=
      Text.legible_quote Text.isStop value.toList text.toList trivial rest behind ends stops same
    exact ⟨by rw [String.toList_inj.mp equal],remaining⟩

private theorem legible_expression {name : String} (own : isName name.toList = true) :
    (Term.expression name).IsLegible := by
  have written (text : String) :
      (Term.expression text).chars = '%' :: '{' :: (text.toList ++ ['}'] ++ ['%']) := by
    simp [chars]
  have spelled : Legible (!isNamePart ·) (fun other : String => isName other.toList = true)
      (fun other => other.toList) id name := Text.legible_name (fun _ allowed => allowed) own
  have braced : Legible (Text.anyOf ['%']) (fun other : String => isName other.toList = true)
      (fun other => other.toList ++ ['}']) id name := spelled.closed rfl
  intro other allowed rest behind ends stops same
  obtain ⟨text,rfl⟩ : other.Fits .expression := fits_of_append_eq (by rwa [isWellFormed]) allowed same
  rw [written,written] at same
  obtain ⟨equal,remaining⟩ :=
    ((braced.closed rfl).cons '{').cons '%' text allowed rest behind ends stops same
  exact ⟨congrArg Term.expression equal,remaining⟩

theorem legible_list {items : List Term} (own : ∀ item ∈ items, item.isWellFormed = true)
    (each : ∀ item ∈ items, item.IsLegible) : (Term.list items).IsLegible := by
  have starts (item : Term) (allowed : item.isWellFormed = true) : Begins Text.isStop item.chars := by
    obtain ⟨c,inside,_,other⟩ := heads_chars allowed
    exact ⟨c,inside,other⟩
  have row : Legible (Text.anyOf [']']) (fun others : List Term => ∀ other ∈ others, other.isWellFormed = true)
      listChars listWithoutEnums items := by
    rw [funext listChars_eq_intercalate,funext listWithoutEnums_eq_map]
    exact Legible.joined rfl (Text.anyOf_imp rfl) rfl starts own each
  have formed : (Term.list items).isWellFormed = true := listWellFormed_iff.mpr own
  intro other allowed rest behind ends stops same
  obtain ⟨others,rfl⟩ := fits_of_append_eq formed allowed same
  obtain ⟨shown,remaining⟩ := (row.closed rfl).cons '[' others (listWellFormed_iff.mp allowed)
    rest behind ends stops same
  exact ⟨congrArg Term.list shown,remaining⟩

private theorem legible_object {members : List (String × Term)}
    (own : ∀ member ∈ members, memberWellFormed member = true)
    (each : ∀ member ∈ members, member.2.IsLegible) : (Term.object members).IsLegible := by
  have row := legible_members own each
  have formed : (Term.object members).isWellFormed = true := membersWellFormed_iff.mpr own
  intro other allowed rest behind ends stops same
  obtain ⟨others,rfl⟩ := fits_of_append_eq formed allowed same
  obtain ⟨shown,remaining⟩ := (row.closed rfl).cons '{' others (membersWellFormed_iff.mp allowed)
    rest behind ends stops same
  exact ⟨congrArg Term.object shown,remaining⟩

end Term

mutual

theorem Term.legible : (term : Term) → term.isWellFormed = true → term.IsLegible
  | .null, own => Term.legible_of_isWord own ⟨rfl,rfl⟩ rfl
  | .bool value, own => Term.legible_of_isWord own (by cases value <;> exact ⟨rfl,rfl⟩) rfl
  | .int value, _ => Term.legible_int value
  | .float _, own => by cases own
  | .string value, _ => Term.legible_string value
  | .enum _, own =>
    Term.legible_of_isWord own ⟨(Term.ofWord_of_isBareWord own).1,(Term.ofWord_of_isBareWord own).2⟩ rfl
  | .list items, own =>
    Term.legible_list (Term.listWellFormed_iff.mp own) (Term.legible_items items own)
  | .object members, own =>
    Term.legible_object (Term.membersWellFormed_iff.mp own) (Term.legible_values members own)
  | .expression _, own => Term.legible_expression own
  | .call step, own =>
    Term.legible_call own (Step.legible true own (Step.legible_values step own).1
      (Step.legible_values step own).2)

private theorem Term.legible_items : (items : List Term) → Term.listWellFormed items = true →
    ∀ item ∈ items, item.IsLegible
  | [], _ => by simp
  | item :: items, own => by
    rw [Term.listWellFormed,Bool.and_eq_true] at own
    exact List.forall_mem_cons.mpr ⟨item.legible own.1,Term.legible_items items own.2⟩

theorem Term.legible_values : (members : List (String × Term)) →
    Term.membersWellFormed members = true → ∀ member ∈ members, member.2.IsLegible
  | [], _ => by simp
  | (_,term) :: members, own => by
    rw [Term.membersWellFormed,Bool.and_eq_true,Bool.and_eq_true] at own
    exact List.forall_mem_cons.mpr ⟨term.legible own.1.2,Term.legible_values members own.2⟩

theorem Step.legible_values : (step : Step) → step.isWellFormed = true →
    (∀ member ∈ step.arguments, member.2.IsLegible) ∧
      ∀ directive ∈ step.directives, ∀ member ∈ directive.arguments, member.2.IsLegible
  | ⟨_,arguments,_,directives⟩, own => by
    rw [Step.isWellFormed,Bool.and_eq_true,Bool.and_eq_true,Bool.and_eq_true] at own
    exact ⟨Term.legible_values arguments own.1.1.2,Directive.legible_values directives own.2⟩

theorem Directive.legible_values : (directives : List Directive) →
    Directive.listWellFormed directives = true →
    ∀ directive ∈ directives, ∀ member ∈ directive.arguments, member.2.IsLegible
  | [], _ => by simp
  | ⟨_,arguments⟩ :: directives, own => by
    rw [Directive.listWellFormed,Directive.isWellFormed,Bool.and_eq_true,Bool.and_eq_true] at own
    exact List.forall_mem_cons.mpr
      ⟨Term.legible_values arguments own.1.2,Directive.legible_values directives own.2⟩

end

theorem Step.script :
    Text.Script Text.isStop (fun step : Step => step.isWellFormed = true) chars withoutEnums where
  starts _ allowed := begins_charsAs false allowed
  legible step allowed :=
    legible false allowed (step.legible_values allowed).1 (step.legible_values allowed).2

namespace Batch

/-- The entries, paths and steps of a batch follow from its text: steps end at a point, paths at a
comma and entries at a semicolon, which their terms do not show outside brackets and strings. -/
theorem content_eq_of_text_eq (first second : Batch) (formed : first.isWellFormed = true)
    (other : second.isWellFormed = true) (same : first.text = second.text) :
    first.content = second.content := by
  have valid (batch : Batch) (formed : batch.isWellFormed = true) :
      ∀ entry ∈ batch, entry.paths ≠ [] ∧
        ∀ path ∈ entry.paths, path ≠ [] ∧ ∀ step ∈ path, step.isWellFormed = true := by
    simpa [isWellFormed] using formed
  have paths : Text.Script (Text.anyOf [',',';']) _ Path.chars (List.map Step.withoutEnums) :=
    Step.script.joined rfl (Text.anyOf_imp rfl) rfl
  have lists : Text.Script (Text.anyOf [';']) _ (fun paths => [','].intercalate (paths.map Path.chars))
      (List.map (List.map Step.withoutEnums)) := paths.joined rfl (Text.anyOf_imp rfl) rfl
  have entries := lists.comap Entry.paths
  have batches : Legible (Text.anyOf []) _ Batch.chars content first :=
    Legible.joined rfl (Text.anyOf_imp rfl) rfl entries.starts (valid first formed)
      fun entry inside => entries.legible entry (valid first formed entry inside)
  have written : first.chars ++ [] = second.chars ++ [] := by
    rw [String.ofList_injective same]
  exact (batches second (valid second other) [] [] Text.ends_nil Text.ends_nil written).1

def spelledSample (word : Term) (id : String) : Batch :=
  [⟨id,[[⟨"a",[("x",word),("y",.list [.int (-3),.string "b,\"c"])],some "k",[⟨"d",[]⟩]⟩,.plain "b"],
    [.applied "c" [("f",.call (.plain "t")),("o",.object [("n",.null),("e",.expression "_v")])]]]⟩]

theorem spelledSample_content :
    (spelledSample (.enum "E") "1-1").text = (spelledSample (.string "E") "2-1").text ∧
      (spelledSample (.enum "E") "1-1").content = (spelledSample (.string "E") "2-1").content := by
  have same : (spelledSample (.enum "E") "1-1").text = (spelledSample (.string "E") "2-1").text := rfl
  exact ⟨same,content_eq_of_text_eq _ _ rfl rfl same⟩

end Batch

end FlatQuery
