import FlatQuery.Proofs.Walk

/-! Outlines: selections with every fragment put in place and every value converted. The paths of
an operation are read off its outline from the root down, one for each leaf, although the walk
builds them from the leaves up. -/

namespace FlatQuery

open Document (Selection SelectionSet)

/-- Selections side by side, with fragments in place and terms for values. The directives of a
step are those written on its field. -/
inductive Outline where
  | nil
  | leaf (step : Step) (rest : Outline)
  | branch (step : Step) (body rest : Outline)
  | fragment (condition? : Option Name) (directives : List Directive) (body rest : Outline)

@[simp] theorem Step.prepend_nil (step : Step) : step.prepend [] = step := by
  cases step
  rfl

@[simp] theorem Path.prepend_nil (path : Path) : path.prepend [] = path := by
  cases path <;> simp [Path.prepend]

theorem Path.prepend_prepend (outer inner : List Directive) (path : Path) :
    (path.prepend inner).prepend outer = path.prepend (outer ++ inner) := by
  cases path <;> simp [Path.prepend,Step.prepend]

namespace Outline

def leafCount : Outline → Nat
  | nil => 0
  | leaf _ rest => 1 + rest.leafCount
  | branch _ body rest => body.leafCount + rest.leafCount
  | fragment _ _ body rest => body.leafCount + rest.leafCount

/-- The paths of the leaves below the fields `above`, where `crossed` are the directives of the
fragments between those fields and here, outermost first. -/
def pathsBelow (above : Path) (crossed : List Directive) : Outline → List Path
  | nil => []
  | leaf step rest =>
    (above ++ [{ step with directives := crossed ++ step.directives }]) ::
      rest.pathsBelow above crossed
  | branch step body rest =>
    body.pathsBelow (above ++ [{ step with directives := crossed ++ step.directives }]) [] ++
      rest.pathsBelow above crossed
  | fragment condition? directives body rest =>
    body.pathsBelow above (crossed ++ Directive.guards condition? ++ directives) ++
      rest.pathsBelow above crossed

theorem length_pathsBelow (outline : Outline) (above : Path) (crossed : List Directive) :
    (outline.pathsBelow above crossed).length = outline.leafCount := by
  induction outline generalizing above crossed with
  | nil => rfl
  | leaf step rest restIH =>
    simp only [pathsBelow,leafCount,List.length_cons,restIH]
    omega
  | branch step body rest bodyIH restIH => simp only [pathsBelow,leafCount,List.length_append,bodyIH,restIH]
  | fragment condition? directives body rest bodyIH restIH =>
    simp only [pathsBelow,leafCount,List.length_append,bodyIH,restIH]

theorem pathsBelow_eq_map (outline : Outline) (above : Path) (crossed : List Directive) :
    outline.pathsBelow above crossed =
      (outline.pathsBelow [] []).map fun path => above ++ path.prepend crossed := by
  induction outline generalizing above crossed with
  | nil => rfl
  | leaf step rest restIH =>
    simp only [pathsBelow,List.map_cons,restIH above crossed]
    simp [Path.prepend,Step.prepend]
  | branch step body rest bodyIH restIH =>
    simp only [pathsBelow,List.map_append,restIH above crossed]
    rw [bodyIH (above ++ _),bodyIH ([] ++ _)]
    simp [Path.prepend,Step.prepend,Function.comp_def]
  | fragment condition? directives body rest bodyIH restIH =>
    simp only [pathsBelow,List.map_append,restIH above crossed]
    rw [bodyIH above,bodyIH [] ([] ++ _ ++ _)]
    simp [Path.prepend_prepend,Function.comp_def]

theorem ne_nil_of_mem_pathsBelow (outline : Outline) (above : Path)
    (crossed : List Directive) : ∀ path ∈ outline.pathsBelow above crossed, path ≠ [] := by
  induction outline generalizing above crossed with
  | nil => simp [pathsBelow]
  | leaf step rest restIH =>
    rw [pathsBelow,List.forall_mem_cons]
    exact ⟨by simp,restIH above crossed⟩
  | branch step body rest bodyIH restIH =>
    rw [pathsBelow,List.forall_mem_append]
    exact ⟨bodyIH _ _,restIH above crossed⟩
  | fragment condition? directives body rest bodyIH restIH =>
    rw [pathsBelow,List.forall_mem_append]
    exact ⟨bodyIH _ _,restIH above crossed⟩

def Every (onStep : Step → Prop) (onFragment : List Directive → Prop) : Outline → Prop
  | nil => True
  | leaf step rest => onStep step ∧ rest.Every onStep onFragment
  | branch step body rest =>
    onStep step ∧ body.Every onStep onFragment ∧ rest.Every onStep onFragment
  | fragment _ directives body rest =>
    onFragment directives ∧ body.Every onStep onFragment ∧ rest.Every onStep onFragment

structure Carried (onStep : Step → Prop) (onDirectives : List Directive → Prop) : Prop where
  nil : onDirectives []
  cross : ∀ crossed condition? directives, onDirectives crossed → onDirectives directives →
    onDirectives (crossed ++ Directive.guards condition? ++ directives)
  prepend : ∀ directives step, onDirectives directives → onStep step →
    onStep (step.prepend directives)

theorem Every.forall_step_mem {outline : Outline} {onStep : Step → Prop}
    {onDirectives : List Directive → Prop} (every : outline.Every onStep onDirectives)
    (carried : Carried onStep onDirectives) (above : Path) (crossed : List Directive)
    (start : ∀ step ∈ above, onStep step) (marks : onDirectives crossed) :
    ∀ path ∈ outline.pathsBelow above crossed, ∀ step ∈ path, onStep step := by
  induction outline generalizing above crossed with
  | nil => simp [pathsBelow]
  | leaf step rest restIH =>
    obtain ⟨own,more⟩ := every
    rw [pathsBelow,List.forall_mem_cons,List.forall_mem_append,List.forall_mem_singleton]
    exact ⟨⟨start,carried.prepend crossed step marks own⟩,restIH more above crossed start marks⟩
  | branch step body rest bodyIH restIH =>
    obtain ⟨own,inner,more⟩ := every
    rw [pathsBelow,List.forall_mem_append]
    refine ⟨bodyIH inner _ [] ?_ carried.nil,restIH more above crossed start marks⟩
    rw [List.forall_mem_append,List.forall_mem_singleton]
    exact ⟨start,carried.prepend crossed step marks own⟩
  | fragment condition? directives body rest bodyIH restIH =>
    obtain ⟨own,inner,more⟩ := every
    rw [pathsBelow,List.forall_mem_append]
    exact ⟨bodyIH inner above _ start (carried.cross crossed condition? directives marks own),
      restIH more above crossed start marks⟩

end Outline

namespace Scope

/-- The step of a field on its own: its name, its arguments as terms, its alias, and the
directives written on it. -/
structure Converts (scope : Scope) (field : Document.Field) (step : Step) : Prop where
  name : step.name = field.name.text
  arguments : scope.arguments field.location field.arguments = .ok step.arguments
  alias? : step.alias? = field.alias?.map Name.text
  directives : scope.directives field.directives = .ok step.directives

theorem step_eq_ok_iff {scope : Scope} {field : Document.Field} {step : Step} :
    scope.step field = .ok step ↔ scope.Converts field step := by
  simp only [Scope.step,bind_eq_ok_iff,pure_eq_ok_iff]
  constructor
  · intro found
    obtain ⟨arguments,converted,directives,written,rfl⟩ := found
    exact ⟨rfl,converted,rfl,written⟩
  · intro converts
    refine ⟨_,converts.arguments,_,converts.directives,?_⟩
    rw [← converts.name,← converts.alias?]
    cases step
    rfl

/-- The outline of selections: a spread becomes the fragment of its name. -/
inductive Outlines (scope : Scope) : List Selection → Outline → Prop
  | nil : Outlines scope [] .nil
  | leaf (field : Document.Field) (rest : List Selection) (step : Step) (more : Outline)
      (converted : scope.Converts field step) (remaining : Outlines scope rest more) :
      Outlines scope (.leaf field :: rest) (.leaf step more)
  | branch (field : Document.Field) (body : SelectionSet) (rest : List Selection) (step : Step)
      (inner more : Outline) (converted : scope.Converts field step)
      (below : Outlines scope body.toList inner) (remaining : Outlines scope rest more) :
      Outlines scope (.branch field body :: rest) (.branch step inner more)
  | spread (name : Name) (location : Location) (directives : List Document.Directive)
      (rest : List Selection) (fragment : Document.Fragment) (written : List Directive)
      (inner more : Outline) (found : scope.request.fragment? name = some fragment)
      (converted : scope.directives directives = .ok written)
      (inside : Outlines scope fragment.selections.toList inner)
      (remaining : Outlines scope rest more) :
      Outlines scope (.spread name location directives :: rest)
        (.fragment (some fragment.condition) written inner more)
  | inline (condition? : Option Name) (directives : List Document.Directive) (body : SelectionSet)
      (rest : List Selection) (written : List Directive) (inner more : Outline)
      (converted : scope.directives directives = .ok written)
      (inside : Outlines scope body.toList inner) (remaining : Outlines scope rest more) :
      Outlines scope (.inline condition? directives body :: rest)
        (.fragment condition? written inner more)

theorem Converts.unique {scope : Scope} {field : Document.Field} {first second : Step}
    (a : scope.Converts field first) (b : scope.Converts field second) : first = second :=
  Except.ok.inj ((step_eq_ok_iff.mpr a).symm.trans (step_eq_ok_iff.mpr b))

theorem Outlines.unique {scope : Scope} {selections : List Selection} {first second : Outline}
    (a : scope.Outlines selections first) (b : scope.Outlines selections second) :
    first = second := by
  induction a generalizing second with
  | nil =>
    cases b with
    | nil => rfl
  | leaf field rest step more converted remaining restIH =>
    cases b with
    | leaf _ _ _ _ converted' remaining' =>
      rw [converted.unique converted',restIH remaining']
  | branch field body rest step inner more converted below remaining bodyIH restIH =>
    cases b with
    | branch _ _ _ _ _ _ converted' below' remaining' =>
      rw [converted.unique converted',bodyIH below',restIH remaining']
  | spread name location directives rest fragment written inner more found converted inside remaining
      bodyIH restIH =>
    cases b with
    | spread _ _ _ _ _ _ _ _ found' converted' inside' remaining' =>
      cases Option.some.inj (found.symm.trans found')
      cases Except.ok.inj (converted.symm.trans converted')
      rw [bodyIH inside',restIH remaining']
  | inline condition? directives body rest written inner more converted inside remaining bodyIH restIH =>
    cases b with
    | inline _ _ _ _ _ _ _ converted' inside' remaining' =>
      cases Except.ok.inj (converted.symm.trans converted')
      rw [bodyIH inside',restIH remaining']

theorem Outlines.every {scope : Scope} {selections : List Selection} {outline : Outline}
    {onStep : Step → Prop} {onFragment : List Directive → Prop}
    (steps : ∀ field step, scope.Converts field step → onStep step)
    (fragments : ∀ directives written, scope.directives directives = .ok written → onFragment written)
    (outlined : scope.Outlines selections outline) : outline.Every onStep onFragment := by
  induction outlined with
  | nil => trivial
  | leaf field rest step more converted remaining restIH =>
    exact ⟨steps field step converted,restIH⟩
  | branch field body rest step inner more converted below remaining bodyIH restIH =>
    exact ⟨steps field step converted,bodyIH,restIH⟩
  | spread name location directives rest fragment written inner more found converted inside remaining
      bodyIH restIH =>
    exact ⟨fragments directives written converted,bodyIH,restIH⟩
  | inline condition? directives body rest written inner more converted inside remaining bodyIH restIH =>
    exact ⟨fragments directives written converted,bodyIH,restIH⟩

theorem Outlines.leafCount_pos {scope : Scope} {selections : List Selection} {outline : Outline}
    (outlined : scope.Outlines selections outline) (nonempty : selections ≠ []) :
    0 < outline.leafCount := by
  induction outlined with
  | nil => exact absurd rfl nonempty
  | leaf field rest step more converted remaining restIH =>
    rw [Outline.leafCount]
    omega
  | branch field body rest step inner more converted below remaining bodyIH restIH =>
    have := bodyIH body.toList_ne_nil
    rw [Outline.leafCount]
    omega
  | spread name location directives rest fragment written inner more found converted inside remaining
      bodyIH restIH =>
    have := bodyIH fragment.selections.toList_ne_nil
    rw [Outline.leafCount]
    omega
  | inline condition? directives body rest written inner more converted inside remaining bodyIH restIH =>
    have := bodyIH body.toList_ne_nil
    rw [Outline.leafCount]
    omega

theorem Outlines.forall_iff_eq {scope : Scope} {selections : List Selection} {outline : Outline}
    (outlined : scope.Outlines selections outline) (other : Outline) :
    scope.Outlines selections other ↔ other = outline := by
  constructor
  · intro otherwise
    exact otherwise.unique outlined
  · intro same
    subst same
    exact outlined

theorem exists_outline (scope : Scope) (entered : List Name) (selections : List Selection)
    (paths : List Path) (ok : scope.listPaths entered selections = .ok paths) :
    ∃ outline, scope.Outlines selections outline ∧ paths = outline.pathsBelow [] [] := by
  induction entered, selections using Request.walk_induction scope.request generalizing paths with
  | nil entered => exact ⟨.nil,.nil,(Except.ok.inj ok).symm⟩
  | leaf entered field rest restIH =>
    obtain ⟨first,more,head,tail,rfl⟩ := listPaths_cons_ok_iff.mp ok
    obtain ⟨step,converted,rfl⟩ := selectionPaths_leaf_ok_iff.mp head
    obtain ⟨after,remaining,rfl⟩ := restIH more tail
    refine ⟨.leaf step after,.leaf _ _ _ _ (step_eq_ok_iff.mp converted) remaining,?_⟩
    cases step
    rfl
  | branch entered field body rest bodyIH restIH =>
    obtain ⟨first,more,head,tail,rfl⟩ := listPaths_cons_ok_iff.mp ok
    obtain ⟨step,inner,converted,computed,rfl⟩ := selectionPaths_branch_ok_iff.mp head
    obtain ⟨body,below,rfl⟩ := bodyIH inner computed
    obtain ⟨after,remaining,rfl⟩ := restIH more tail
    refine ⟨.branch step body after,
      .branch _ _ _ _ _ _ (step_eq_ok_iff.mp converted) below remaining,?_⟩
    rw [Outline.pathsBelow,body.pathsBelow_eq_map ([] ++ _)]
    cases step
    simp
  | spread entered name location directives rest bodyIH restIH =>
    obtain ⟨first,more,head,tail,rfl⟩ := listPaths_cons_ok_iff.mp ok
    obtain ⟨fresh,fragment,inner,written,found,computed,converted,rfl⟩ :=
      selectionPaths_spread_ok_iff.mp head
    obtain ⟨body,inside,rfl⟩ := bodyIH fragment fresh found inner computed
    obtain ⟨after,remaining,rfl⟩ := restIH more tail
    refine ⟨.fragment (some fragment.condition) written body after,
      .spread _ _ _ _ _ _ _ _ found converted inside remaining,?_⟩
    rw [Outline.pathsBelow,body.pathsBelow_eq_map [] ([] ++ _ ++ _)]
    rfl
  | inline entered condition? directives body rest bodyIH restIH =>
    obtain ⟨first,more,head,tail,rfl⟩ := listPaths_cons_ok_iff.mp ok
    obtain ⟨inner,written,computed,converted,rfl⟩ := selectionPaths_inline_ok_iff.mp head
    obtain ⟨body,inside,rfl⟩ := bodyIH inner computed
    obtain ⟨after,remaining,rfl⟩ := restIH more tail
    refine ⟨.fragment condition? written body after,
      .inline _ _ _ _ _ _ _ converted inside remaining,?_⟩
    rw [Outline.pathsBelow,body.pathsBelow_eq_map [] ([] ++ _ ++ _)]
    rfl

theorem forall_step_of_operationPaths_ok {scope : Scope} {paths : List Path} {onStep : Step → Prop}
    {onDirectives : List Directive → Prop} (carried : Outline.Carried onStep onDirectives)
    (steps : ∀ field step, scope.Converts field step → onStep step)
    (fragments : ∀ directives written, scope.directives directives = .ok written →
      onDirectives written)
    (ok : scope.operationPaths = .ok paths) : ∀ path ∈ paths, ∀ step ∈ path, onStep step := by
  rw [operationPaths_eq_listPaths] at ok
  obtain ⟨outline,outlined,rfl⟩ := exists_outline scope [] _ paths ok
  exact (outlined.every steps fragments).forall_step_mem carried [] [] (by simp) carried.nil

/-- The paths of an operation are those of the leaves of its outline, which is the only one it
has: in order, with a step for each field and none for a fragment, the directives of the
fragments around a field before its own. -/
theorem operationPaths_eq_pathsBelow (scope : Scope) (paths : List Path)
    (ok : scope.operationPaths = .ok paths) :
    ∃ outline, (∀ other, scope.Outlines scope.operation.selections.toList other ↔ other = outline) ∧
      paths = outline.pathsBelow [] [] ∧ paths.length = outline.leafCount := by
  rw [operationPaths_eq_listPaths] at ok
  obtain ⟨outline,outlined,rfl⟩ := exists_outline scope [] _ paths ok
  exact ⟨outline,outlined.forall_iff_eq,rfl,outline.length_pathsBelow [] []⟩

def nestedSample : Scope where
  settings := .allOff
  request :=
    { operations := []
      fragments := [⟨⟨"F",rfl⟩,⟨"T",rfl⟩,
        .cons (.inline none [⟨⟨"y",rfl⟩,[],.start⟩] (.single
          (.branch ⟨.start,some ⟨"k",rfl⟩,⟨"b",rfl⟩,[(⟨"n",rfl⟩,.int 1)],[]⟩
            (.single (.leaf ⟨.start,none,⟨"c",rfl⟩,[],[]⟩)))))
        (.single (.leaf ⟨.start,none,⟨"d",rfl⟩,[],[]⟩))⟩]
      values := [] }
  operation :=
    { name? := none
      kind := .query
      location := .start
      declarations := []
      selections := .single (.branch ⟨.start,none,⟨"a",rfl⟩,[],[]⟩
        (.single (.spread ⟨"F",rfl⟩ .start [⟨⟨"x",rfl⟩,[],.start⟩]))) }

theorem nestedSample_operationPaths : nestedSample.operationPaths = .ok
    [[.plain "a",⟨"b",[("n",.int 1)],some "k",[.typeGuard "T",⟨"x",[]⟩,⟨"y",[]⟩]⟩,.plain "c"],
     [.plain "a",⟨"d",[],none,[.typeGuard "T",⟨"x",[]⟩]⟩]] := by
  with_unfolding_all rfl

theorem nestedSample_pathsBelow :
    ∃ outline, (∀ other, nestedSample.Outlines nestedSample.operation.selections.toList other ↔
        other = outline) ∧
      [[.plain "a",⟨"b",[("n",.int 1)],some "k",[.typeGuard "T",⟨"x",[]⟩,⟨"y",[]⟩]⟩,.plain "c"],
       [.plain "a",⟨"d",[],none,[.typeGuard "T",⟨"x",[]⟩]⟩]] = outline.pathsBelow [] [] ∧
      2 = outline.leafCount :=
  operationPaths_eq_pathsBelow nestedSample _ nestedSample_operationPaths

end Scope

end FlatQuery
