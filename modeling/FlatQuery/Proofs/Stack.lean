import FlatQuery.Proofs.Walk
import Mathlib.Data.Finset.Card
import Mathlib.Data.List.Nodup
import Mathlib.Data.Prod.Lex
import Mathlib.Logic.Relation

/-! The walk with its stack. All calls share one stack of fragment names, pushed before the selections
of a fragment are walked and popped after, whatever comes of them. Every call finds distinct names of
defined fragments on it and leaves it as it was, so that the calls come to an end. -/

namespace FlatQuery

open Document (Selection SelectionSet)

namespace Request

def names (request : Request) : Finset Name :=
  (request.fragments.map (·.name)).toFinset

def unvisited (request : Request) (stack : List Name) : Finset Name :=
  request.names \ stack.toFinset

variable {request : Request} {name : Name} {stack : List Name}

private theorem mem_names_of_fragment? {fragment : Document.Fragment}
    (found : request.fragment? name = some fragment) : name ∈ request.names := by
  rw [names,List.mem_toFinset,List.mem_map]
  exact ⟨fragment,fragment?_mem found,fragment?_name found⟩

private theorem length_le_card_names (distinct : stack.Nodup)
    (defined : ∀ name ∈ stack, name ∈ request.names) : stack.length ≤ request.names.card := by
  rw [← List.toFinset_card_of_nodup distinct]
  apply Finset.card_le_card
  intro name inside
  exact defined name (List.mem_toFinset.mp inside)

private theorem card_unvisited_cons_lt (defined : name ∈ request.names) (fresh : name ∉ stack) :
    (request.unvisited (name :: stack)).card < (request.unvisited stack).card := by
  have pushed : request.unvisited (name :: stack) = (request.unvisited stack).erase name := by
    rw [unvisited,unvisited,List.toFinset_cons,Finset.sdiff_insert,Finset.erase_eq]
  have present : name ∈ request.unvisited stack := by
    rw [unvisited,Finset.mem_sdiff,List.mem_toFinset]
    exact ⟨defined,fresh⟩
  rw [pushed]
  exact Finset.card_erase_lt_of_mem present

end Request

namespace Scope

mutual

/-- What comes of a selection met with a stack, and the stack after it. -/
inductive Meets (scope : Scope) : List Name → Selection → Except Problem (List Path) →
    List Name → Prop
  | leaf (stack field) : scope.Meets stack (.leaf field)
      (do let step ← scope.step field; return [[step]]) stack
  | unwritten (stack field body) {problem} (failed : scope.step field = .error problem) :
      scope.Meets stack (.branch field body) (.error problem) stack
  | branch (field) {stack body step outcome after} (written : scope.step field = .ok step)
      (walked : scope.Walks stack body outcome after) :
      scope.Meets stack (.branch field body)
        (do let paths ← outcome; return paths.map (step :: ·)) after
  | entered (location directives) {stack name} (inside : name ∈ stack) :
      scope.Meets stack (.spread name location directives)
        (.error (.recursiveFragment name.text location)) stack
  | unknown (location directives) {stack name} (fresh : name ∉ stack)
      (missing : scope.request.fragment? name = none) :
      scope.Meets stack (.spread name location directives)
        (.error (.unknownFragment name.text location)) stack
  | spread (location directives) {stack name fragment outcome after} (fresh : name ∉ stack)
      (found : scope.request.fragment? name = some fragment)
      (walked : scope.Walks (name :: stack) fragment.selections outcome after) :
      scope.Meets stack (.spread name location directives)
        (do
          let paths ← outcome
          let directives ← scope.directives directives
          return paths.map (Path.prepend (.typeGuard fragment.condition.text :: directives)))
        after.tail
  | inline (condition? directives) {stack body outcome after}
      (walked : scope.Walks stack body outcome after) :
      scope.Meets stack (.inline condition? directives body)
        (do
          let paths ← outcome
          let directives ← scope.directives directives
          return paths.map (Path.prepend (Directive.guards condition? ++ directives)))
        after

/-- What comes of one call: its selections are met in turn up to the first problem. -/
inductive Walks (scope : Scope) : List Name → SelectionSet → Except Problem (List Path) →
    List Name → Prop
  | single {stack selection outcome after} (met : scope.Meets stack selection outcome after) :
      scope.Walks stack (.single selection) outcome after
  | failed (rest) {stack selection problem after}
      (met : scope.Meets stack selection (.error problem) after) :
      scope.Walks stack (.cons selection rest) (.error problem) after
  | cons {stack selection rest first between outcome after}
      (met : scope.Meets stack selection (.ok first) between)
      (walked : scope.Walks between rest outcome after) :
      scope.Walks stack (.cons selection rest)
        (do let more ← outcome; return first ++ more) after

end

variable {scope : Scope}

mutual

theorem Meets.restores {stack after : List Name} {selection : Selection}
    {outcome : Except Problem (List Path)} : scope.Meets stack selection outcome after →
    outcome = scope.selectionPaths stack selection ∧ after = stack
  | .leaf stack field => ⟨(scope.selectionPaths_leaf stack field).symm,rfl⟩
  | .unwritten stack field body failed => by
    rw [selectionPaths_branch,failed]
    exact ⟨rfl,rfl⟩
  | .branch field written walked => by
    obtain ⟨rfl,rfl⟩ := walked.restores
    rw [selectionPaths_branch,written]
    exact ⟨rfl,rfl⟩
  | .entered location directives inside =>
    ⟨(scope.selectionPaths_spread_entered location directives inside).symm,rfl⟩
  | .unknown location directives fresh missing =>
    ⟨(scope.selectionPaths_spread_unknown location directives fresh missing).symm,rfl⟩
  | .spread location directives fresh found walked => by
    -- the walk of the fragment leaves its name on top, so that the pop takes off what was pushed
    obtain ⟨rfl,rfl⟩ := walked.restores
    exact ⟨(scope.selectionPaths_spread_known location directives fresh found).symm,rfl⟩
  | .inline condition? directives walked => by
    obtain ⟨rfl,rfl⟩ := walked.restores
    exact ⟨(scope.selectionPaths_inline _ condition? directives _).symm,rfl⟩

theorem Walks.restores {stack after : List Name} {selections : SelectionSet}
    {outcome : Except Problem (List Path)} : scope.Walks stack selections outcome after →
    outcome = scope.paths stack selections ∧ after = stack
  | .single met => by
    rw [paths_single]
    exact met.restores
  | .failed rest met => by
    obtain ⟨failed,rfl⟩ := met.restores
    rw [paths_cons,← failed]
    exact ⟨rfl,rfl⟩
  | .cons met walked => by
    obtain ⟨first,rfl⟩ := met.restores
    obtain ⟨rfl,rfl⟩ := walked.restores
    rw [paths_cons,← first]
    exact ⟨rfl,rfl⟩

end

structure Call where
  stack : List Name
  selections : SelectionSet

inductive Opens (scope : Scope) (stack : List Name) : Selection → Call → Prop
  | branch (body) {field step} (written : scope.step field = .ok step) :
      scope.Opens stack (.branch field body) ⟨stack,body⟩
  | spread (location directives) {name fragment} (fresh : name ∉ stack)
      (found : scope.request.fragment? name = some fragment) :
      scope.Opens stack (.spread name location directives) ⟨name :: stack,fragment.selections⟩
  | inline (condition? directives body) :
      scope.Opens stack (.inline condition? directives body) ⟨stack,body⟩

/-- One call makes another: it meets the selection that leads there after it has walked those before. -/
inductive Calls (scope : Scope) : Call → Call → Prop
  | single {stack selection inner} (opened : scope.Opens stack selection inner) :
      scope.Calls ⟨stack,.single selection⟩ inner
  | first (rest) {stack selection inner} (opened : scope.Opens stack selection inner) :
      scope.Calls ⟨stack,.cons selection rest⟩ inner
  | later {stack selection rest paths between inner}
      (met : scope.Meets stack selection (.ok paths) between)
      (called : scope.Calls ⟨between,rest⟩ inner) :
      scope.Calls ⟨stack,.cons selection rest⟩ inner

/-- How many defined fragments are not on the stack, then the size of what is still to walk. -/
def weight (scope : Scope) (call : Call) : Nat × Nat :=
  ((scope.request.unvisited call.stack).card,call.selections.size)

def Lighter (scope : Scope) (inner outer : Call) : Prop :=
  Prod.Lex (· < ·) (· < ·) (scope.weight inner) (scope.weight outer)

structure Fits (scope : Scope) (call : Call) : Prop where
  distinct : call.stack.Nodup
  defined : ∀ name ∈ call.stack, name ∈ scope.request.names

variable {stack : List Name} {selection : Selection} {inner outer : Call}

private theorem lighter_of_size_lt {body selections : SelectionSet}
    (smaller : body.size < selections.size) : scope.Lighter ⟨stack,body⟩ ⟨stack,selections⟩ :=
  .right _ smaller

private theorem Lighter.of_size_le {body selections : SelectionSet}
    (lighter : scope.Lighter inner ⟨stack,body⟩)
    (smaller : body.size ≤ selections.size) : scope.Lighter inner ⟨stack,selections⟩ := by
  rw [Lighter,Prod.lex_def] at lighter ⊢
  rcases lighter with fewer | ⟨same,less⟩
  · exact .inl fewer
  · exact .inr ⟨same,lt_of_lt_of_le less smaller⟩

theorem Opens.lighter (opened : scope.Opens stack selection inner) {selections : SelectionSet}
    (part : selection.size < selections.size) : scope.Lighter inner ⟨stack,selections⟩ := by
  cases opened with
  | branch body written =>
    rw [Selection.size] at part
    exact lighter_of_size_lt (by omega)
  | spread location directives fresh found =>
    exact .left _ _ (Request.card_unvisited_cons_lt (Request.mem_names_of_fragment? found) fresh)
  | inline condition? directives body =>
    rw [Selection.size] at part
    exact lighter_of_size_lt (by omega)

theorem Calls.lighter (called : scope.Calls outer inner) : scope.Lighter inner outer := by
  induction called with
  | single opened =>
    apply opened.lighter
    rw [SelectionSet.size]
    omega
  | first rest opened =>
    apply opened.lighter
    rw [SelectionSet.size]
    omega
  | later met called ih =>
    -- the rest is walked with the stack that the selection before it left, which is the same one
    obtain ⟨_,rfl⟩ := met.restores
    apply ih.of_size_le
    rw [SelectionSet.size]
    omega

theorem Opens.fits (opened : scope.Opens stack selection inner) {selections : SelectionSet}
    (fits : scope.Fits ⟨stack,selections⟩) : scope.Fits inner := by
  cases opened with
  | branch body written => exact ⟨fits.distinct,fits.defined⟩
  | spread location directives fresh found =>
    refine ⟨List.nodup_cons.mpr ⟨fresh,fits.distinct⟩,?_⟩
    intro name inside
    rcases List.mem_cons.mp inside with rfl | below
    · exact Request.mem_names_of_fragment? found
    · exact fits.defined name below
  | inline condition? directives body => exact ⟨fits.distinct,fits.defined⟩

theorem Calls.fits (called : scope.Calls outer inner) (fits : scope.Fits outer) : scope.Fits inner := by
  induction called with
  | single opened => exact opened.fits fits
  | first rest opened => exact opened.fits fits
  | later met called ih =>
    obtain ⟨_,rfl⟩ := met.restores
    exact ih ⟨fits.distinct,fits.defined⟩

private theorem fits_of_reached {start : SelectionSet} {call : Call}
    (reached : Relation.ReflTransGen scope.Calls ⟨[],start⟩ call) : scope.Fits call := by
  induction reached with
  | refl => exact ⟨List.nodup_nil,fun _ none => absurd none List.not_mem_nil⟩
  | tail reached called ih => exact called.fits ih

theorem wellFounded_calls (scope : Scope) : WellFounded fun inner outer => scope.Calls outer inner :=
  Subrelation.wf Calls.lighter (InvImage.wf scope.weight (Prod.lex Nat.lt_wfRel Nat.lt_wfRel).wf)

private theorem exists_meets (ends : ∀ inner, scope.Opens stack selection inner →
      ∃ outcome after, scope.Walks inner.stack inner.selections outcome after) :
    ∃ outcome after, scope.Meets stack selection outcome after := by
  cases selection with
  | leaf field => exact ⟨_,_,.leaf stack field⟩
  | branch field body =>
    cases written : scope.step field with
    | error problem => exact ⟨_,_,.unwritten stack field body written⟩
    | ok step =>
      obtain ⟨outcome,after,walked⟩ := ends _ (.branch body written)
      exact ⟨_,_,.branch field written walked⟩
  | spread name location directives =>
    by_cases inside : name ∈ stack
    · exact ⟨_,_,.entered location directives inside⟩
    · cases found : scope.request.fragment? name with
      | none => exact ⟨_,_,.unknown location directives inside found⟩
      | some fragment =>
        obtain ⟨outcome,after,walked⟩ := ends _ (.spread location directives inside found)
        exact ⟨_,_,.spread location directives inside found walked⟩
  | inline condition? directives body =>
    obtain ⟨outcome,after,walked⟩ := ends _ (.inline condition? directives body)
    exact ⟨_,_,.inline condition? directives walked⟩

private theorem exists_walks_of_calls {stack : List Name} (selections : SelectionSet)
    (ends : ∀ inner, scope.Calls ⟨stack,selections⟩ inner →
      ∃ outcome after, scope.Walks inner.stack inner.selections outcome after) :
    ∃ outcome after, scope.Walks stack selections outcome after := by
  match selections with
  | .single selection =>
    obtain ⟨outcome,after,met⟩ := exists_meets fun inner opened => ends inner (.single opened)
    exact ⟨outcome,after,.single met⟩
  | .cons selection rest =>
    obtain ⟨outcome,after,met⟩ := exists_meets fun inner opened => ends inner (.first rest opened)
    cases outcome with
    | error problem => exact ⟨_,after,.failed rest met⟩
    | ok first =>
      obtain ⟨more,last,walked⟩ := exists_walks_of_calls rest fun inner called =>
        ends inner (.later met called)
      exact ⟨_,last,.cons met walked⟩

theorem exists_walks (scope : Scope) (call : Call) :
    ∃ outcome after, scope.Walks call.stack call.selections outcome after := by
  induction call using scope.wellFounded_calls.induction with
  | _ call ih => exact exists_walks_of_calls call.selections ih

theorem walks_iff {stack after : List Name} {selections : SelectionSet}
    {outcome : Except Problem (List Path)} : scope.Walks stack selections outcome after ↔
    outcome = scope.paths stack selections ∧ after = stack := by
  refine ⟨Walks.restores,?_⟩
  rintro ⟨same,restored⟩
  obtain ⟨found,last,walked⟩ := scope.exists_walks ⟨stack,selections⟩
  obtain ⟨foundSame,lastRestored⟩ := walked.restores
  rw [foundSame,lastRestored] at walked
  rw [same,restored]
  exact walked

theorem meets_iff {stack after : List Name} {selection : Selection}
    {outcome : Except Problem (List Path)} : scope.Meets stack selection outcome after ↔
    outcome = scope.selectionPaths stack selection ∧ after = stack := by
  rw [← paths_single,← walks_iff]
  refine ⟨.single,?_⟩
  rintro ⟨met⟩
  exact met

/-- Whatever is walked from an empty stack, every call finds distinct names of defined fragments on the
stack, ends with one outcome and the stack as it was, and makes lighter calls only. So there is no
endless chain of calls, and an operation and any selection have paths or a problem. -/
theorem calls_restore_stack_and_end (scope : Scope) :
    (∀ start call, Relation.ReflTransGen scope.Calls ⟨[],start⟩ call →
      (call.stack.Nodup ∧ (∀ name ∈ call.stack, name ∈ scope.request.names) ∧
        call.stack.length ≤ scope.request.names.card) ∧
      (∀ outcome after, scope.Walks call.stack call.selections outcome after ↔
        outcome = scope.paths call.stack call.selections ∧ after = call.stack) ∧
      ∀ inner, scope.Calls call inner → scope.Lighter inner call) ∧
    (WellFounded fun inner outer => scope.Calls outer inner) ∧
    (∀ outcome after, scope.Walks [] scope.operation.selections outcome after ↔
      outcome = scope.operationPaths ∧ after = []) ∧
    ∀ selection outcome after, scope.Meets [] selection outcome after ↔
      outcome = scope.selectionPaths [] selection ∧ after = [] := by
  refine ⟨?_,scope.wellFounded_calls,fun _ _ => walks_iff,fun _ _ _ => meets_iff⟩
  intro start call reached
  have fits := fits_of_reached reached
  have bounded := Request.length_le_card_names fits.distinct fits.defined
  exact ⟨⟨fits.distinct,fits.defined,bounded⟩,fun _ _ => walks_iff,fun _ => Calls.lighter⟩

def entrySample : Selection := .leaf ⟨.start,none,⟨"entry",rfl⟩,[],[]⟩

def innerSample : Document.Fragment where
  name := ⟨"Inner",rfl⟩
  condition := ⟨"Leaf",rfl⟩
  selections := .cons entrySample (.single (.spread ⟨"Outer",rfl⟩ .start []))

def outerSample : Document.Fragment where
  name := ⟨"Outer",rfl⟩
  condition := ⟨"Tree",rfl⟩
  selections := .cons entrySample (.single (.spread innerSample.name .start []))

def cyclicSample : Scope where
  settings := .allOff
  request := ⟨[],[innerSample,outerSample],[]⟩
  operation := ⟨none,.query,.start,[],.single (.spread outerSample.name .start [])⟩

theorem cyclicSample_calls :
    let outer : Call := ⟨[outerSample.name],outerSample.selections⟩
    let inner : Call := ⟨[innerSample.name,outerSample.name],innerSample.selections⟩
    Relation.ReflTransGen cyclicSample.Calls ⟨[],cyclicSample.operation.selections⟩ inner ∧
    inner.stack.Nodup ∧ inner.stack.length = cyclicSample.request.names.card ∧
    cyclicSample.Lighter inner outer ∧
    cyclicSample.paths inner.stack inner.selections =
      .error (.recursiveFragment "Outer" .start) := by
  intro outer inner
  have fresh : innerSample.name ∉ outer.stack := by decide
  have shown (stack : List Name) : ∃ paths, cyclicSample.Meets stack entrySample (.ok paths) stack :=
    ⟨_,.leaf stack _⟩
  have outerFound : cyclicSample.request.fragment? outerSample.name = some outerSample := rfl
  have innerFound : cyclicSample.request.fragment? innerSample.name = some innerSample := rfl
  have entersOuter : cyclicSample.Calls ⟨[],cyclicSample.operation.selections⟩ outer :=
    .single (.spread .start [] List.not_mem_nil outerFound)
  obtain ⟨_,outerShown⟩ := shown outer.stack
  have entersInner : cyclicSample.Calls outer inner :=
    .later outerShown (.single (.spread .start [] fresh innerFound))
  have reached := (Relation.ReflTransGen.single entersOuter).tail entersInner
  obtain ⟨_,innerShown⟩ := shown inner.stack
  have again : cyclicSample.Walks inner.stack inner.selections
      (.error (.recursiveFragment "Outer" .start)) inner.stack :=
    .cons innerShown (.single (.entered .start [] (by decide)))
  have atOuter := cyclicSample.calls_restore_stack_and_end.1 _ _ (.single entersOuter)
  have atInner := cyclicSample.calls_restore_stack_and_end.1 _ _ reached
  exact ⟨reached,atInner.1.1,by decide,atOuter.2.2 inner entersInner,((atInner.2.1 _ _).mp again).1.symm⟩

end Scope

end FlatQuery
