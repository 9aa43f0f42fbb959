import FlatQuery.Proofs.Places

/-! Which operations of a document run, and what is said if none can. The operations that a name
asks for are kept in the order of the text. They run if they may, if there are any, and if none of
them is a subscription; otherwise the problem is the first of these that fails. -/

namespace FlatQuery

open Document (Operation)

namespace Text

variable {c : Char}

private theorem toNat_toLower (c : Char) :
    c.toLower.toNat = if 65 ≤ c.toNat ∧ c.toNat ≤ 90 then c.toNat + 32 else c.toNat := by
  have upper : c.val ≥ 'A'.val ∧ c.val ≤ 'Z'.val ↔ 65 ≤ c.toNat ∧ c.toNat ≤ 90 := Iff.rfl
  unfold Char.toLower
  split
  next between =>
    have bounds := upper.mp between
    rw [if_pos bounds]
    change (c.val + 32).toNat = c.toNat + 32
    rw [UInt32.toNat_add]
    exact Nat.mod_eq_of_lt (by change c.toNat + 32 < _; omega)
  next outside => rw [if_neg (upper.not.mp outside)]

private theorem toLower_eq_iff_of_letter {lower upper : Char}
    (letter : 97 ≤ lower.toNat ∧ lower.toNat ≤ 122) (same : upper.toNat + 32 = lower.toNat) :
    c.toLower = lower ↔ c ∈ [upper,lower] := by
  simp only [List.mem_cons,List.not_mem_nil,or_false,← Char.toNat_inj,toNat_toLower]
  split <;> omega

private theorem toLower_eq_underscore_iff : c.toLower = '_' ↔ c = '_' := by
  rw [← Char.toNat_inj,← Char.toNat_inj,toNat_toLower]
  change _ = 95 ↔ _ = 95
  split <;> omega

end Text

namespace Request

def placeholderSpellings : List String :=
  ["__ALL","__ALl","__AlL","__All","__aLL","__aLl","__alL","__all"]

theorem isPlaceholder_iff {name : String} :
    isPlaceholder name = true ↔ name ∈ placeholderSpellings := by
  constructor
  · intro placeholds
    have first (c : Char) : c.toLower = 'a' ↔ c ∈ ['A','a'] :=
      Text.toLower_eq_iff_of_letter (by decide) rfl
    have other (c : Char) : c.toLower = 'l' ↔ c ∈ ['L','l'] :=
      Text.toLower_eq_iff_of_letter (by decide) rfl
    have lowered : placeholder.toList.map Char.toLower = ['_','_','a','l','l'] := by decide
    rw [isPlaceholder,decide_eq_true_iff,lowered] at placeholds
    simp only [List.map_eq_cons_iff,List.map_eq_nil_iff,Text.toLower_eq_underscore_iff,first,
      other] at placeholds
    obtain ⟨_,_,spelled,rfl,_,_,rfl,rfl,a,_,rfl,inA,b,_,rfl,inB,c,_,rfl,inC,rfl⟩ := placeholds
    have whole : name = String.ofList ['_','_',a,b,c] :=
      String.toList_injective (spelled.trans String.toList_ofList.symm)
    simp only [List.mem_cons,List.not_mem_nil,or_false] at inA inB inC
    rcases inA with rfl | rfl <;> rcases inB with rfl | rfl <;> rcases inC with rfl | rfl <;>
      rw [whole] <;> decide
  · have each : ∀ spelling ∈ placeholderSpellings, isPlaceholder spelling = true := by decide
    exact each name

/-- A name that stands for all the other operations, which it does only if several may run. -/
def StandsForOthers (several : Bool) (name : String) : Prop :=
  several = true ∧ name ∈ placeholderSpellings

instance (several : Bool) (name : String) : Decidable (StandsForOthers several name) :=
  inferInstanceAs (Decidable (_ ∧ _))

theorem standsForOthers_iff {several : Bool} {name : String} :
    (several && isPlaceholder name) = true ↔ StandsForOthers several name := by
  rw [Bool.and_eq_true,isPlaceholder_iff,StandsForOthers]

def Wanted (several : Bool) (name? : Option String) (operation : Operation) : Prop :=
  match name? with
  | none => True
  | some name =>
    if StandsForOthers several name then operation.name?.map Name.text ≠ some name
    else operation.name?.map Name.text = some name

instance (several : Bool) (name? : Option String) (operation : Operation) :
    Decidable (Wanted several name? operation) :=
  match name? with
  | none => inferInstanceAs (Decidable True)
  | some name => inferInstanceAs (Decidable (if StandsForOthers several name then _ else _))

def kept (several : Bool) (name? : Option String) (operations : List Operation) : List Operation :=
  operations.filter (Wanted several name? ·)

theorem meant_eq_kept (several : Bool) (name? : Option String) (operations : List Operation) :
    meant several name? operations = kept several name? operations := by
  cases name? with
  | none => exact (List.filter_eq_self.mpr fun _ _ => rfl).symm
  | some name =>
    rw [meant,kept]
    by_cases stands : StandsForOthers several name
    · rw [if_pos (standsForOthers_iff.mpr stands)]
      apply List.filter_congr
      intro operation _
      rw [isNamed,← decide_not]
      simp only [Wanted,if_pos stands,Ne]
    · rw [if_neg (standsForOthers_iff.not.mpr stands)]
      apply List.filter_congr
      intro operation _
      simp only [isNamed,Wanted,if_neg stands]

def executable (operations : List Operation) : List Operation :=
  operations.filter fun operation => operation.kind = .query ∨ operation.kind = .mutation

/-- Without a name and without leave to run several there may be one query or mutation. -/
def Allowed (several : Bool) (name? : Option String) (operations : List Operation) : Prop :=
  name? = none → several = false → (executable operations).length ≤ 1

section

variable (several : Bool) (name? : Option String) (operations : List Operation)

/-- What is to be said of the operations of a document: the first refusal that applies, or what
runs. -/
inductive Verdict : Except Problem (List Operation) → Prop
  | severalOperations (refused : ¬ Allowed several name? operations) :
      Verdict (.error (.severalOperations (executable operations).length
        ((executable operations).map fun operation => (operation.name?.map Name.text).getD "")))
  | unknownOperation (name : String) (given : name? = some name)
      (plain : ¬ StandsForOthers several name) (nothing : kept several name? operations = []) :
      Verdict (.error (.unknownOperation name))
  | noOperation (allowed : Allowed several name? operations)
      (general : ∀ name, name? = some name → StandsForOthers several name)
      (nothing : kept several name? operations = []) : Verdict (.error .noOperation)
  | subscription (allowed : Allowed several name? operations) (before after : List Operation)
      (operation : Operation) (split : kept several name? operations = before ++ operation :: after)
      (first : ∀ other ∈ before, other.kind ≠ .subscription)
      (refused : operation.kind = .subscription) :
      Verdict (.error (.subscription operation.location))
  | runs (allowed : Allowed several name? operations)
      (something : kept several name? operations ≠ [])
      (runnable : ∀ operation ∈ kept several name? operations, operation.kind ≠ .subscription) :
      Verdict (.ok (kept several name? operations))

end

section

variable {several : Bool} {name? : Option String} {operations : List Operation}

private theorem filter_isRunnable (operations : List Operation) :
    operations.filter isRunnable = executable operations := by
  apply List.filter_congr
  intro operation _
  rw [isRunnable]
  cases operation.kind <;> rfl

private theorem runnableNames_eq (operations : List Operation) :
    runnableNames operations =
      (executable operations).map fun operation => (operation.name?.map Name.text).getD "" := by
  rw [runnableNames,filter_isRunnable]

private theorem allowed_iff :
    (name?.isNone && !several && 1 < (runnableNames operations).length) = false ↔
    Allowed several name? operations := by
  simp [Allowed,runnableNames_eq]

theorem select_of_allowed (allowed : Allowed several name? operations) :
    select several name? operations =
      if (kept several name? operations).isEmpty then .error (nothingMeant several name?)
      else
        match (kept several name? operations).find? (!isRunnable ·) with
        | some operation => .error (.subscription operation.location)
        | none => .ok (kept several name? operations) := by
  rw [select,allowed_iff.mpr allowed,meant_eq_kept]
  cases kept several name? operations <;> rfl

theorem Verdict.select_eq {outcome : Except Problem (List Operation)}
    (verdict : Verdict several name? operations outcome) :
    select several name? operations = outcome := by
  cases verdict with
  | severalOperations refused =>
    have counted := (Bool.not_eq_false _).mp (allowed_iff.not.mpr refused)
    rw [select,if_pos counted,runnableNames_eq,List.length_map]
  | unknownOperation name given plain nothing =>
    have allowed : Allowed several name? operations := by simp [Allowed,given]
    rw [select_of_allowed allowed,nothing,given,nothingMeant,
      if_neg (standsForOthers_iff.not.mpr plain)]
    rfl
  | noOperation allowed general nothing =>
    rw [select_of_allowed allowed,nothing]
    cases name? with
    | none => rfl
    | some name => simp [nothingMeant,standsForOthers_iff.mpr (general name rfl)]
  | subscription allowed before after operation split first refused =>
    have found : (kept several name? operations).find? (!isRunnable ·) = some operation := by
      rw [List.find?_eq_some_iff_append]
      refine ⟨by simp [isRunnable,refused],before,after,split,?_⟩
      simpa [isRunnable] using first
    rw [select_of_allowed allowed,found,split]
    simp
  | runs allowed something runnable =>
    have unhindered : (kept several name? operations).find? (!isRunnable ·) = none := by
      simpa [isRunnable] using runnable
    rw [select_of_allowed allowed,unhindered,if_neg (by simpa using something)]

private theorem Verdict.of_find? {operation : Operation}
    (allowed : Allowed several name? operations)
    (found : (kept several name? operations).find? (·.kind = .subscription) = some operation) :
    Verdict several name? operations (.error (.subscription operation.location)) := by
  obtain ⟨refused,before,after,split,first⟩ := List.find?_eq_some_iff_append.mp found
  exact .subscription allowed before after operation split (by simpa using first)
    (by simpa using refused)

variable (several name? operations) in
theorem exists_verdict : ∃ outcome, Verdict several name? operations outcome := by
  by_cases allowed : Allowed several name? operations
  · by_cases nothing : kept several name? operations = []
    · cases name? with
      | none => exact ⟨_,.noOperation allowed (by simp) nothing⟩
      | some name =>
        by_cases stands : StandsForOthers several name
        · exact ⟨_,.noOperation allowed (fun _ given => Option.some.inj given ▸ stands) nothing⟩
        · exact ⟨_,.unknownOperation name rfl stands nothing⟩
    · cases found : (kept several name? operations).find? (·.kind = .subscription) with
      | none => exact ⟨_,.runs allowed nothing (by simpa using found)⟩
      | some operation => exact ⟨_,.of_find? allowed found⟩
  · exact ⟨_,.severalOperations allowed⟩

theorem select_eq_iff_verdict {outcome : Except Problem (List Operation)} :
    select several name? operations = outcome ↔ Verdict several name? operations outcome := by
  constructor
  · rintro rfl
    obtain ⟨outcome,verdict⟩ := exists_verdict several name? operations
    rwa [verdict.select_eq]
  · exact Verdict.select_eq

theorem verdict_ok_iff {chosen : List Operation} :
    Verdict several name? operations (.ok chosen) ↔
      chosen = kept several name? operations ∧ Allowed several name? operations ∧ chosen ≠ [] ∧
        ∀ operation ∈ chosen, operation.kind ≠ .subscription := by
  constructor
  · intro verdict
    cases verdict with
    | runs allowed something runnable => exact ⟨rfl,allowed,something,runnable⟩
  · rintro ⟨rfl,allowed,something,runnable⟩
    exact .runs allowed something runnable

end

/-- The queries and the mutations of a request are all its operations, each kind in its order. -/
structure Divided (request : Request) : Prop where
  queries : request.queries.Sublist request.operations
  mutations : request.mutations.Sublist request.operations
  all : (request.queries ++ request.mutations).Perm request.operations
  kinds : (∀ operation ∈ request.queries, operation.kind = .query) ∧
    ∀ operation ∈ request.mutations, operation.kind = .mutation

theorem divided_of_runnable {request : Request}
    (runnable : ∀ operation ∈ request.operations, operation.kind ≠ .subscription) :
    request.Divided where
  queries := List.filter_sublist
  mutations := List.filter_sublist
  all := by
    -- what is no query is a mutation, since subscriptions do not run
    have others : request.mutations =
        request.operations.filter fun operation => !decide (operation.kind = .query) := by
      apply List.filter_congr
      intro operation inside
      cases given : operation.kind with
      | query => rfl
      | mutation => rfl
      | subscription => exact absurd given (runnable operation inside)
    rw [others,queries]
    exact List.filter_append_perm _ request.operations
  kinds := by simp [queries,mutations]

section

variable {submission : Submission} {document : Document}

theorem ofDocument_error_iff {problem : Problem} :
    ofDocument document submission = .error problem ↔
      select submission.several submission.operationName? document.operations = .error problem := by
  rw [ofDocument]
  cases select submission.several submission.operationName? document.operations with
  | error cause => simp [bind,Except.bind]
  | ok operations => simp [bind,Except.bind,pure,Except.pure]

theorem ofSubmission_iff_of_lawful {parse : Document.Parser} (lawful : parse.Lawful)
    (parsed : parse submission.text = .ok document) :
    let asked := kept submission.several submission.operationName? document.operations
    ((∃ request, ofSubmission submission parse = .ok request ∧ request.operations = asked) ↔
      Allowed submission.several submission.operationName? document.operations ∧ asked ≠ [] ∧
        ∀ operation ∈ asked, operation.kind ≠ .subscription) ∧
    (∀ request, ofSubmission submission parse = .ok request →
      request.operations = asked ∧ request.Divided) ∧
    ∀ failure, ofSubmission submission parse = .error failure ↔
      ∃ problem, failure = .problem problem ∧
        Verdict submission.several submission.operationName? document.operations
          (.error problem) := by
  intro asked
  have ok_iff (request : Request) : ofSubmission submission parse = .ok request ↔
      (request.operations = asked ∧
        Allowed submission.several submission.operationName? document.operations ∧
        request.operations ≠ [] ∧
        ∀ operation ∈ request.operations, operation.kind ≠ .subscription) ∧
      request.fragments = document.fragments ∧ request.values = submission.values := by
    rw [ofSubmission_eq_of_parse_ok lawful parsed,mapError_eq_ok_iff,ofDocument_ok_iff,
      select_eq_iff_verdict,verdict_ok_iff]
  refine ⟨⟨?_,?_⟩,?_,?_⟩
  · rintro ⟨request,accepted,same⟩
    rw [← same]
    exact ((ok_iff request).mp accepted).1.2
  · intro runs
    exact ⟨⟨asked,document.fragments,submission.values⟩,(ok_iff _).mpr ⟨⟨rfl,runs⟩,rfl,rfl⟩,rfl⟩
  · intro request accepted
    obtain ⟨⟨same,_,_,runnable⟩,_⟩ := (ok_iff request).mp accepted
    exact ⟨same,divided_of_runnable runnable⟩
  · intro failure
    rw [ofSubmission_eq_of_parse_ok lawful parsed,mapError_eq_error_iff]
    simp only [ofDocument_error_iff,select_eq_iff_verdict,and_comm]

variable (submission document) in
/-- Those operations run that are asked for, and they are the queries and mutations of the request.
They run exactly if their number is allowed, there are any and none is a subscription; otherwise the
problem is the first refusal that applies. -/
theorem ofSubmission_iff_verdict (parsed : Document.parse submission.text = .ok document) :
    let asked := kept submission.several submission.operationName? document.operations
    ((∃ request, ofSubmission submission = .ok request ∧ request.operations = asked) ↔
      Allowed submission.several submission.operationName? document.operations ∧ asked ≠ [] ∧
        ∀ operation ∈ asked, operation.kind ≠ .subscription) ∧
    (∀ request, ofSubmission submission = .ok request →
      request.operations = asked ∧ request.Divided) ∧
    ∀ failure, ofSubmission submission = .error failure ↔
      ∃ problem, failure = .problem problem ∧
        Verdict submission.several submission.operationName? document.operations
          (.error problem) :=
  ofSubmission_iff_of_lawful Document.parse_lawful parsed

end

-- one operation is named like the placeholder, one has no name, and one is a subscription
def mixedText : String :=
  "query A { a } subscription S { s } mutation B { b } { c } query __aLL { d }"

theorem mixedText_verdicts :
    ∃ document, Document.parse mixedText = .ok document ∧
      ofSubmission ⟨mixedText,[],false,none⟩ =
        .error (.problem (.severalOperations 4 ["A","B","","__aLL"])) ∧
      ofSubmission ⟨mixedText,[],true,some "__aLL"⟩ = .error (.problem (.subscription ⟨1,15⟩)) ∧
      ofSubmission ⟨mixedText,[],true,some "C"⟩ = .error (.problem (.unknownOperation "C")) ∧
      ∃ request, ofSubmission ⟨mixedText,[],false,some "__aLL"⟩ = .ok request ∧
        request.operations = kept false (some "__aLL") document.operations := by
  have computed : (Document.parse mixedText).toOption.any (fun document =>
      ((executable document.operations).map fun operation =>
        (operation.name?.map Name.text).getD "") = ["A","B","","__aLL"] ∧
      ((kept true (some "__aLL") document.operations).find? (·.kind = .subscription)).map
        (·.location) = some ⟨1,15⟩ ∧
      (kept true (some "C") document.operations).isEmpty ∧
      (kept false (some "__aLL") document.operations).map (·.kind) = [.query]) = true := by
    decide +kernel
  obtain ⟨document,parsed,found⟩ := exists_ok_of_any computed
  obtain ⟨names,subscription,unknown,single⟩ := of_decide_eq_true found
  have outcomes (several : Bool) (name? : Option String) :=
    ofSubmission_iff_verdict ⟨mixedText,[],several,name?⟩ document parsed
  refine ⟨document,parsed,?_,?_,?_,?_⟩
  · refine ((outcomes false none).2.2 _).mpr ⟨_,rfl,?_⟩
    have count : (executable document.operations).length = 4 := by
      simpa using congrArg List.length names
    have refused : ¬ Allowed false none document.operations := by
      intro allowed
      have few := allowed rfl rfl
      omega
    have verdict := Verdict.severalOperations refused
    rwa [names,count] at verdict
  · refine ((outcomes true _).2.2 _).mpr ⟨_,rfl,?_⟩
    obtain ⟨operation,first,same⟩ := Option.map_eq_some_iff.mp subscription
    rw [← same]
    exact .of_find? (by simp [Allowed]) first
  · refine ((outcomes true _).2.2 _).mpr ⟨_,rfl,?_⟩
    exact .unknownOperation "C" rfl (by decide) (List.isEmpty_iff.mp unknown)
  · obtain ⟨operation,alone,kind⟩ := List.map_eq_singleton_iff.mp single
    refine (outcomes false _).1.mpr ⟨by simp [Allowed],?_,?_⟩
    · simp [alone]
    · simp [alone,kind]

end Request

end FlatQuery
