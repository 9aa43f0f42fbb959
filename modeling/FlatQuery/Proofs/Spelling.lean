import FlatQuery.Batch
import FlatQuery.Proofs.Legible
import FlatQuery.Proofs.Nesting

/-! How the parts of a query are spelled. Each part shows where the one before it ends, so names,
members, directives and steps can be read in one way only if the terms in them can. An enumeration
value is written like a string, and is a string in what a batch says. -/

namespace FlatQuery

open Text (Ends Begins Legible isName isNamePart isNameStart isBareWord)

mutual

/-- Enumeration values are written like strings, and are strings here. -/
def Term.withoutEnums : Term → Term
  | .null => .null
  | .bool value => .bool value
  | .int value => .int value
  | .float value => .float value
  | .string value => .string value
  | .enum name => .string name
  | .list items => .list (Term.listWithoutEnums items)
  | .object members => .object (Term.membersWithoutEnums members)
  | .expression name => .expression name
  | .call step => .call step.withoutEnums

def Term.listWithoutEnums : List Term → List Term
  | [] => []
  | item :: items => item.withoutEnums :: Term.listWithoutEnums items

def Term.membersWithoutEnums : List (String × Term) → List (String × Term)
  | [] => []
  | (key,term) :: members => (key,term.withoutEnums) :: Term.membersWithoutEnums members

def Step.withoutEnums : Step → Step
  | ⟨name,arguments,alias?,directives⟩ =>
    ⟨name,Term.membersWithoutEnums arguments,alias?,Directive.listWithoutEnums directives⟩

def Directive.withoutEnums : Directive → Directive
  | ⟨name,arguments⟩ => ⟨name,Term.membersWithoutEnums arguments⟩

def Directive.listWithoutEnums : List Directive → List Directive
  | [] => []
  | directive :: directives => directive.withoutEnums :: Directive.listWithoutEnums directives

end

mutual

/-- Names and keys are names, enumeration values are no keywords, and there are no floats. -/
def Term.isWellFormed : Term → Bool
  | .null | .bool _ | .int _ | .string _ => true
  | .float _ => false
  | .enum name => isBareWord name.toList
  | .list items => Term.listWellFormed items
  | .object members => Term.membersWellFormed members
  | .expression name => isName name.toList
  | .call step => step.isWellFormed

def Term.listWellFormed : List Term → Bool
  | [] => true
  | item :: items => item.isWellFormed && Term.listWellFormed items

def Term.membersWellFormed : List (String × Term) → Bool
  | [] => true
  | (key,term) :: members =>
    (isName key.toList && term.isWellFormed) && Term.membersWellFormed members

def Step.isWellFormed : Step → Bool
  | ⟨name,arguments,alias?,directives⟩ =>
    isName name.toList && Term.membersWellFormed arguments &&
      alias?.all (isName ·.toList) && Directive.listWellFormed directives

def Directive.isWellFormed : Directive → Bool
  | ⟨name,arguments⟩ => isName name.toList && Term.membersWellFormed arguments

def Directive.listWellFormed : List Directive → Bool
  | [] => true
  | directive :: directives => directive.isWellFormed && Directive.listWellFormed directives

end

namespace Batch

/-- Every entry has a path and every path a step, and all steps are well formed. -/
def isWellFormed (batch : Batch) : Bool :=
  batch.all fun entry => !entry.paths.isEmpty &&
    entry.paths.all fun path => !path.isEmpty && path.all Step.isWellFormed

/-- What a batch says, without identifiers and without the difference of enumeration values and
strings. -/
def content (batch : Batch) : List (List Path) :=
  batch.map fun entry => entry.paths.map fun path => path.map Step.withoutEnums

end Batch

namespace Text

def anyOf (marks : List Char) (c : Char) : Bool := marks.contains c

def stops : List Char := [',','.',';',')',']','}','|','>']

def isStop : Char → Bool := anyOf stops

theorem anyOf_imp {marks : List Char} {kind : Char → Bool} (all : marks.all kind = true) (c : Char)
    (inside : anyOf marks c = true) : kind c = true :=
  List.all_eq_true.mp all c (List.contains_iff_mem.mp inside)

theorem exists_cons_of_isName {cs : List Char} (named : isName cs = true) :
    ∃ c rest, cs = c :: rest ∧ isNameStart c = true := by
  cases cs with
  | nil => cases named
  | cons c rest =>
    rw [isName,Bool.and_eq_true] at named
    exact ⟨c,rest,rfl,named.1⟩

theorem begins_of_isName {cs : List Char} (named : isName cs = true) : Begins isStop cs := by
  obtain ⟨c,rest,rfl,start⟩ := exists_cons_of_isName named
  apply begins_cons
  cases stopped : isStop c with
  | false => rfl
  | true =>
    have apart : stops.all (!isNameStart ·) = true := rfl
    have other := anyOf_imp apart c stopped
    rw [start] at other
    cases other

theorem all_isNamePart {cs : List Char} (named : isName cs = true) : cs.all isNamePart = true :=
  List.all_eq_true.mpr (isNamePart_of_isName named)

end Text

section Rows

theorem Term.listWithoutEnums_eq_map (items : List Term) :
    listWithoutEnums items = items.map withoutEnums := by
  induction items with
  | nil => rfl
  | cons item items ih => rw [listWithoutEnums,ih,List.map_cons]

theorem Term.listWellFormed_iff {items : List Term} :
    listWellFormed items = true ↔ ∀ item ∈ items, item.isWellFormed = true := by
  induction items with
  | nil => simp [listWellFormed]
  | cons item items ih => rw [listWellFormed,Bool.and_eq_true,ih,List.forall_mem_cons]

theorem Term.listChars_eq_intercalate (items : List Term) :
    listChars items = [','].intercalate (items.map chars) :=
  Legible.eq_intercalate rfl (fun _ => rfl) (fun _ _ _ => rfl) items

def Term.memberText (member : String × Term) : List Char := member.1.toList ++ ':' :: member.2.chars

def Term.memberView (member : String × Term) : String × Term := (member.1,member.2.withoutEnums)

def Term.memberWellFormed (member : String × Term) : Bool :=
  isName member.1.toList && member.2.isWellFormed

private theorem Term.membersWithoutEnums_eq_map (members : List (String × Term)) :
    membersWithoutEnums members = members.map memberView := by
  induction members with
  | nil => rfl
  | cons member members ih => rw [membersWithoutEnums,ih,List.map_cons,memberView]

theorem Term.membersWellFormed_iff {members : List (String × Term)} :
    membersWellFormed members = true ↔ ∀ member ∈ members, memberWellFormed member = true := by
  induction members with
  | nil => simp [membersWellFormed]
  | cons member members ih =>
    rw [membersWellFormed,Bool.and_eq_true,ih,List.forall_mem_cons,memberWellFormed]

theorem Term.memberChars_eq_intercalate (members : List (String × Term)) :
    memberChars members = [','].intercalate (members.map memberText) :=
  Legible.eq_intercalate rfl (fun _ => rfl) (fun _ _ _ => rfl) members

theorem Directive.listWithoutEnums_eq_map (directives : List Directive) :
    listWithoutEnums directives = directives.map withoutEnums := by
  induction directives with
  | nil => rfl
  | cons directive directives ih => rw [listWithoutEnums,ih,List.map_cons]

theorem Directive.listWellFormed_iff {directives : List Directive} :
    listWellFormed directives = true ↔
      ∀ directive ∈ directives, directive.isWellFormed = true := by
  induction directives with
  | nil => simp [listWellFormed]
  | cons directive directives ih => rw [listWellFormed,Bool.and_eq_true,ih,List.forall_mem_cons]

theorem Directive.listChars_eq_intercalate (directives : List Directive) :
    listChars directives = ['|'].intercalate (directives.map chars) :=
  Legible.eq_intercalate rfl (fun _ => rfl) (fun _ _ _ => rfl) directives

theorem Directive.isWellFormed_iff {directive : Directive} :
    directive.isWellFormed = true ↔ isName directive.name.toList = true ∧
      ∀ member ∈ directive.arguments, Term.memberWellFormed member = true := by
  cases directive
  rw [isWellFormed,Bool.and_eq_true,Term.membersWellFormed_iff]

theorem Step.isWellFormed_iff {step : Step} :
    step.isWellFormed = true ↔ isName step.name.toList = true ∧
      (∀ member ∈ step.arguments, Term.memberWellFormed member = true) ∧
      step.alias?.all (isName ·.toList) = true ∧
      ∀ directive ∈ step.directives, directive.isWellFormed = true := by
  cases step
  rw [isWellFormed,Bool.and_eq_true,Bool.and_eq_true,Bool.and_eq_true,Term.membersWellFormed_iff,
    Directive.listWellFormed_iff,and_assoc,and_assoc]

end Rows

section Parts

def Term.IsLegible (term : Term) : Prop :=
  Legible Text.isStop (fun other : Term => other.isWellFormed = true) Term.chars Term.withoutEnums term

theorem Text.legible_name {α : Type} {valid : α → Prop} {name : α → String} {x : α}
    (named : ∀ y, valid y → isName (name y).toList = true) (own : valid x) :
    Legible (!isNamePart ·) valid (fun y => (name y).toList) name x := by
  have spelled : Legible (!isNamePart ·) valid (fun y => (name y).toList)
      (fun y => (name y).toList) x := by
    refine Legible.of_all (fun y allowed => Text.all_isNamePart (named y allowed)) ?_ own
    intro c stops
    simpa using stops
  exact spelled.look fun y _ same => String.toList_inj.mp same

private theorem Term.legible_member {member : String × Term} (own : memberWellFormed member = true)
    (legible : member.2.IsLegible) :
    Legible Text.isStop (fun other => memberWellFormed other = true) memberText memberView member := by
  have valid (other : String × Term) (allowed : memberWellFormed other = true) :
      isName other.1.toList = true ∧ other.2.isWellFormed = true := by
    rwa [memberWellFormed,Bool.and_eq_true] at allowed
  have key : Legible (!isNamePart ·) (fun other => memberWellFormed other = true)
      (fun other : String × Term => other.1.toList) Prod.fst member :=
    Text.legible_name (fun other allowed => (valid other allowed).1) own
  have value : Legible Text.isStop (fun other => memberWellFormed other = true)
      (fun other : String × Term => ':' :: other.2.chars) (fun other => other.2.withoutEnums) member :=
    (legible.comap fun other allowed => (valid other allowed).2).cons ':'
  refine (key.append value (Text.anyOf_imp (by decide)) ?_ own).look ?_
  · intro other _
    exact Text.ends_cons (by decide)
  · intro other _ same
    exact same

private theorem Term.begins_member {member : String × Term} (own : memberWellFormed member = true) :
    Begins Text.isStop (memberText member) := by
  rw [memberWellFormed,Bool.and_eq_true] at own
  exact (Text.begins_of_isName own.1).append

theorem Term.legible_members {members : List (String × Term)}
    (own : ∀ member ∈ members, memberWellFormed member = true)
    (each : ∀ member ∈ members, member.2.IsLegible) :
    Legible (Text.anyOf [')','}']) (fun others => ∀ other ∈ others, memberWellFormed other = true)
      memberChars membersWithoutEnums members := by
  rw [funext memberChars_eq_intercalate,funext membersWithoutEnums_eq_map]
  have legible (member : String × Term) (inside : member ∈ members) :=
    legible_member (own member inside) (each member inside)
  exact Legible.joined rfl (Text.anyOf_imp rfl) rfl (fun _ => begins_member) own legible

section Pieces

variable {α : Type} {valid : α → Prop} {stop : Char → Bool} {x : α}

private theorem Step.legible_parenthesized {arguments : α → Arguments} (call : Bool)
    (opening : stop '(' = false)
    (well : ∀ y, valid y → ∀ member ∈ arguments y, Term.memberWellFormed member = true)
    (own : valid x) (each : ∀ member ∈ arguments x, member.2.IsLegible) :
    Legible stop valid
      (fun y => parenthesized call (arguments y) (Term.memberChars (arguments y)))
      (fun y => Term.membersWithoutEnums (arguments y)) x := by
  unfold parenthesized
  refine Legible.optional opening ?_ ?_
  · intro here y _ there
    rw [Bool.and_eq_true,List.isEmpty_iff] at here there
    rw [here.1,there.1]
  · intro _
    have members := Term.legible_members (well x own) each
    apply Legible.closed (by decide) (members.comap ?_)
    intro y allowed
    exact well y allowed.1

private theorem Step.ends_parenthesized
    (opening : stop '(' = true) (call : Bool) (arguments : Arguments)
    (written : List Char) : Ends stop (parenthesized call arguments written) := by
  unfold parenthesized
  split
  · exact Text.ends_nil
  · exact Text.ends_cons opening

private theorem Step.aliasChars_eq_ite (alias? : Option String) :
    aliasChars alias? = if alias?.isNone then [] else '@' :: (alias?.getD "").toList := by
  cases alias? <;> rfl

private theorem Step.legible_aliasChars {alias? : α → Option String} (opening : stop '@' = false)
    (apart : ∀ c, stop c = true → (!isNamePart c) = true)
    (well : ∀ y, valid y → (alias? y).all (isName ·.toList) = true) (own : valid x) :
    Legible stop valid (fun y => aliasChars (alias? y)) alias? x := by
  simp only [aliasChars_eq_ite]
  refine Legible.optional opening ?_ ?_
  · intro here y _ there
    rw [Option.isNone_iff_eq_none] at here there
    rw [here,there]
  · intro here
    have named (y : α) (allowed : valid y ∧ (alias? y).isNone = false) :
        isName ((alias? y).getD "").toList = true := by
      have all := well y allowed.1
      cases given : alias? y with
      | none => simp [given] at allowed
      | some name => simpa [given] using all
    have spelled := (Text.legible_name named ⟨own,here⟩).narrow apart
    apply spelled.look
    intro y allowed same
    cases first : alias? x with
    | none => simp [first] at here
    | some name =>
      cases second : alias? y with
      | none => simp [second] at allowed
      | some other => simpa [first,second] using same

private theorem Step.ends_aliasChars (opening : stop '@' = true) (alias? : Option String) :
    Ends stop (aliasChars alias?) := by
  cases alias? with
  | none => exact Text.ends_nil
  | some name => exact Text.ends_cons opening

end Pieces

namespace Directive

private theorem chars_eq_append (directive : Directive) :
    directive.chars = directive.name.toList ++
      Step.parenthesized false directive.arguments (Term.memberChars directive.arguments) := by
  cases directive
  rfl

theorem legible {directive : Directive} (own : directive.isWellFormed = true)
    (each : ∀ member ∈ directive.arguments, member.2.IsLegible) :
    Legible Text.isStop (fun other : Directive => other.isWellFormed = true) chars withoutEnums
      directive := by
  rw [funext chars_eq_append]
  have named (other : Directive) (allowed : other.isWellFormed = true) :=
    (isWellFormed_iff.mp allowed).1
  have formed (other : Directive) (allowed : other.isWellFormed = true) :=
    (isWellFormed_iff.mp allowed).2
  have arguments : Legible Text.isStop _ _ _ directive :=
    Step.legible_parenthesized false rfl formed own each
  have both := (Text.legible_name named own).append arguments (Text.anyOf_imp rfl)
    (fun _ _ => Step.ends_parenthesized rfl false _ _) own
  apply both.look
  intro other _ same
  cases directive
  cases other
  simpa [withoutEnums] using same

theorem legible_list {directives : List Directive}
    (own : ∀ directive ∈ directives, directive.isWellFormed = true)
    (each : ∀ directive ∈ directives, ∀ member ∈ directive.arguments, member.2.IsLegible) :
    Legible (Text.anyOf ['>']) (fun others => ∀ other ∈ others, isWellFormed other = true)
      listChars listWithoutEnums directives := by
  rw [funext listChars_eq_intercalate,funext listWithoutEnums_eq_map]
  have starts (other : Directive) (allowed : other.isWellFormed = true) :
      Begins Text.isStop other.chars := by
    rw [chars_eq_append]
    exact (Text.begins_of_isName (isWellFormed_iff.mp allowed).1).append
  have legible (directive : Directive) (inside : directive ∈ directives) :=
    legible (own directive inside) (each directive inside)
  exact Legible.joined rfl (Text.anyOf_imp rfl) rfl starts own legible

end Directive

namespace Step

theorem charsAs_eq_append (call : Bool) (step : Step) :
    step.charsAs call = step.name.toList ++
      parenthesized call step.arguments (Term.memberChars step.arguments) ++
      aliasChars step.alias? ++ angled step.directives (Directive.listChars step.directives) := by
  cases step
  rfl

theorem exists_charsAs_true (step : Step) :
    ∃ tail, step.charsAs true = step.name.toList ++ '(' :: tail := by
  rw [charsAs_eq_append,parenthesized,if_neg (by simp)]
  simp only [List.append_assoc,List.cons_append]
  exact ⟨_,rfl⟩

private theorem legible_angled {step : Step} (own : step.isWellFormed = true)
    (each : ∀ directive ∈ step.directives, ∀ member ∈ directive.arguments, member.2.IsLegible) :
    Legible Text.isStop (fun other : Step => other.isWellFormed = true)
      (fun other => angled other.directives (Directive.listChars other.directives))
      (fun other => Directive.listWithoutEnums other.directives) step := by
  unfold angled
  refine Legible.optional rfl ?_ ?_
  · intro here other _ there
    rw [List.isEmpty_iff] at here there
    rw [here,there]
  · intro _
    have list := Directive.legible_list (isWellFormed_iff.mp own).2.2.2 each
    apply Legible.closed rfl (list.comap ?_)
    intro other allowed
    exact (isWellFormed_iff.mp allowed.1).2.2.2

theorem legible {step : Step} (call : Bool) (own : step.isWellFormed = true)
    (arguments : ∀ member ∈ step.arguments, member.2.IsLegible)
    (directives : ∀ directive ∈ step.directives, ∀ member ∈ directive.arguments, member.2.IsLegible) :
    Legible Text.isStop (fun other : Step => other.isWellFormed = true) (charsAs call) withoutEnums
      step := by
  rw [funext (charsAs_eq_append call)]
  have named (other : Step) (allowed : other.isWellFormed = true) := (isWellFormed_iff.mp allowed).1
  have formed (other : Step) (allowed : other.isWellFormed = true) :=
    (isWellFormed_iff.mp allowed).2.1
  have renamed (other : Step) (allowed : other.isWellFormed = true) :=
    (isWellFormed_iff.mp allowed).2.2.1
  have first : Legible (Text.anyOf ('@' :: '<' :: Text.stops)) _ _ _ step :=
    (Text.legible_name named own).append (legible_parenthesized call rfl formed own arguments)
      (Text.anyOf_imp rfl) (fun _ _ => ends_parenthesized rfl call _ _) own
  have second : Legible (Text.anyOf ('<' :: Text.stops)) _ _ _ step :=
    first.append (legible_aliasChars rfl (Text.anyOf_imp rfl) renamed own) (Text.anyOf_imp rfl)
      (fun _ _ => ends_aliasChars rfl _) own
  have ends (other : Step) : Ends (Text.anyOf ('<' :: Text.stops))
      (angled other.directives (Directive.listChars other.directives)) := by
    unfold angled
    split
    · exact Text.ends_nil
    · exact Text.ends_cons rfl
  have third := second.append (legible_angled own directives) (Text.anyOf_imp rfl)
    (fun other _ => ends other) own
  apply third.look
  intro other _ same
  cases step
  cases other
  simpa [withoutEnums,and_assoc] using same

theorem begins_charsAs (call : Bool) {step : Step} (own : step.isWellFormed = true) :
    Begins Text.isStop (step.charsAs call) := by
  rw [charsAs_eq_append,List.append_assoc,List.append_assoc]
  exact (Text.begins_of_isName (isWellFormed_iff.mp own).1).append

end Step

end Parts

end FlatQuery
