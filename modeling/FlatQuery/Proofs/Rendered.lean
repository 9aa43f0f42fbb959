import FlatQuery.Proofs.Reachability

/-! Where written arguments end up. Each argument of a field or of a directive that an operation
reaches has a term, and that term stands under the same key in a step of one of its paths: none is
lost on the way through fragments. -/

namespace FlatQuery

open Document (Selection)

namespace Document

def Directive.members (directive : Directive) : List (Location × Name × Value) :=
  directive.arguments.map fun argument => (directive.location,argument)

def Field.members (field : Field) : List (Location × Name × Value) :=
  field.arguments.map (fun argument => (field.location,argument)) ++
    field.directives.flatMap Directive.members

/-- The arguments written on a selection itself, not on those below it. -/
def Selection.members : Selection → List (Location × Name × Value)
  | .leaf field => field.members
  | .branch field _ => field.members
  | .spread _ _ directives => directives.flatMap Directive.members
  | .inline _ directives _ => directives.flatMap Directive.members

end Document

def Step.members (step : Step) : Arguments :=
  step.arguments ++ step.directives.flatMap Directive.arguments

private theorem Step.mem_members_prepend_of_crossed {step : Step} {directives : List Directive}
    {member : String × Term} (here : member ∈ directives.flatMap Directive.arguments) :
    member ∈ (step.prepend directives).members := by
  rw [members,prepend,List.flatMap_append]
  exact List.mem_append_right _ (List.mem_append_left _ here)

private theorem Step.mem_members_prepend {step : Step} {member : String × Term}
    (directives : List Directive) (here : member ∈ step.members) :
    member ∈ (step.prepend directives).members := by
  rw [members,prepend,List.flatMap_append]
  rcases List.mem_append.mp here with own | marked
  · exact List.mem_append_left _ own
  · exact List.mem_append_right _ (List.mem_append_right _ marked)

namespace Scope

variable {scope : Scope} {location place : Location} {key : Name} {value : Document.Value}

private theorem exists_mem_of_arguments_ok {members : Document.Arguments} {arguments : Arguments}
    (ok : scope.arguments location members = .ok arguments) (inside : (key,value) ∈ members) :
    ∃ term, scope.term location value = .ok term ∧ (key.text,term) ∈ arguments := by
  induction members generalizing arguments with
  | nil => cases inside
  | cons member members ih =>
    obtain ⟨first,rest,head,tail,rfl⟩ := arguments_cons_ok_iff.mp ok
    rcases List.mem_cons.mp inside with rfl | later
    · exact ⟨first,head,List.mem_cons_self⟩
    · obtain ⟨term,converted,present⟩ := ih tail later
      exact ⟨term,converted,List.mem_cons_of_mem _ present⟩

private theorem exists_mem_of_directives_ok {written : List Document.Directive}
    {directives : List Directive} (ok : scope.directives written = .ok directives)
    (inside : (place,key,value) ∈ written.flatMap Document.Directive.members) :
    ∃ term, scope.term place value = .ok term ∧
      (key.text,term) ∈ directives.flatMap Directive.arguments := by
  induction written generalizing directives with
  | nil => cases inside
  | cons first rest ih =>
    obtain ⟨head,tail,converted,remaining,rfl⟩ := directives_cons_ok_iff.mp ok
    rw [List.flatMap_cons] at inside ⊢
    rcases List.mem_append.mp inside with here | later
    · obtain ⟨member,argued,same⟩ := List.mem_map.mp here
      cases same
      obtain ⟨term,computed,present⟩ :=
        exists_mem_of_arguments_ok (directive_ok_iff.mp converted).2 argued
      exact ⟨term,computed,List.mem_append_left _ present⟩
    · obtain ⟨term,computed,present⟩ := ih remaining later
      exact ⟨term,computed,List.mem_append_right _ present⟩

private theorem Converts.exists_mem {field : Document.Field} {step : Step}
    (converts : scope.Converts field step) (inside : (place,key,value) ∈ field.members) :
    ∃ term, scope.term place value = .ok term ∧ (key.text,term) ∈ step.members := by
  rcases List.mem_append.mp inside with own | marked
  · obtain ⟨member,argued,same⟩ := List.mem_map.mp own
    cases same
    obtain ⟨term,computed,present⟩ := exists_mem_of_arguments_ok converts.arguments argued
    exact ⟨term,computed,List.mem_append_left _ present⟩
  · obtain ⟨term,computed,present⟩ := exists_mem_of_directives_ok converts.directives marked
    exact ⟨term,computed,List.mem_append_right _ present⟩

end Scope

/-- One of the paths has a step with this argument, on its field or on a directive. -/
def Path.Shows (paths : List Path) (member : String × Term) : Prop :=
  ∃ path ∈ paths, ∃ step ∈ path, member ∈ step.members

theorem Path.Shows.mono {inner outer : List Path} {member : String × Term}
    (within : inner ⊆ outer) (shows : Shows inner member) : Shows outer member := by
  obtain ⟨path,inside,shown⟩ := shows
  exact ⟨path,within inside,shown⟩

namespace Outline

variable {outline : Outline} {member : String × Term} {above : Path} {crossed : List Directive}

private theorem exists_mem_pathsBelow (leaves : 0 < outline.leafCount) (above : Path)
    (crossed : List Directive) :
    ∃ root rest, above ++ Step.prepend crossed root :: rest ∈ outline.pathsBelow above crossed := by
  rw [← outline.length_pathsBelow [] []] at leaves
  obtain ⟨path,inside⟩ := List.exists_mem_of_length_pos leaves
  have nonempty := outline.ne_nil_of_mem_pathsBelow [] [] path inside
  obtain ⟨root,rest,rfl⟩ := List.exists_cons_of_ne_nil nonempty
  refine ⟨root,rest,?_⟩
  rw [pathsBelow_eq_map]
  exact List.mem_map_of_mem inside

private theorem shows_of_above (leaves : 0 < outline.leafCount) (crossed : List Directive)
    {step : Step} (inside : step ∈ above) (here : member ∈ step.members) :
    Path.Shows (outline.pathsBelow above crossed) member := by
  obtain ⟨root,rest,present⟩ := exists_mem_pathsBelow leaves above crossed
  exact ⟨_,present,step,List.mem_append_left _ inside,here⟩

private theorem shows_of_crossed (leaves : 0 < outline.leafCount) (above : Path)
    (here : member ∈ crossed.flatMap Directive.arguments) :
    Path.Shows (outline.pathsBelow above crossed) member := by
  obtain ⟨root,rest,present⟩ := exists_mem_pathsBelow leaves above crossed
  exact ⟨_,present,root.prepend crossed,by simp,Step.mem_members_prepend_of_crossed here⟩

end Outline

namespace Scope

variable {scope : Scope} {place : Location} {key : Name} {value : Document.Value}

private theorem exists_shown_directive {written : List Document.Directive}
    {directives : List Directive} {body : Outline}
    (ok : scope.directives written = .ok directives) (leaves : 0 < body.leafCount)
    (inside : (place,key,value) ∈ written.flatMap Document.Directive.members) (above : Path)
    (crossed : List Directive) :
    ∃ term, scope.term place value = .ok term ∧
      Path.Shows (body.pathsBelow above (crossed ++ directives)) (key.text,term) := by
  obtain ⟨term,computed,present⟩ := exists_mem_of_directives_ok ok inside
  have marked : (key.text,term) ∈ (crossed ++ directives).flatMap Directive.arguments := by
    rw [List.flatMap_append]
    exact List.mem_append_right _ present
  exact ⟨term,computed,Outline.shows_of_crossed leaves above marked⟩

theorem Outlines.exists_shown {selections : List Selection} {outline : Outline}
    {selection : Selection} (outlined : scope.Outlines selections outline)
    (reached : scope.request.Reaches selections selection)
    (inside : (place,key,value) ∈ selection.members) (above : Path) (crossed : List Directive) :
    ∃ term, scope.term place value = .ok term ∧
      Path.Shows (outline.pathsBelow above crossed) (key.text,term) := by
  have onward {term : Term} {inner outer : List Path} (within : inner ⊆ outer) :
      scope.term place value = .ok term ∧ Path.Shows inner (key.text,term) →
        ∃ term, scope.term place value = .ok term ∧ Path.Shows outer (key.text,term) :=
    fun found => ⟨term,found.1,found.2.mono within⟩
  induction outlined generalizing above crossed with
  | nil => exact absurd reached Request.not_reaches_nil
  | leaf field rest step more converted remaining restIH =>
    rcases reached.cons_cases with rfl | below | later
    · obtain ⟨term,computed,present⟩ := converted.exists_mem inside
      refine ⟨term,computed,_,List.mem_cons_self,step.prepend crossed,by simp [Step.prepend],?_⟩
      exact Step.mem_members_prepend crossed present
    · exact absurd below Request.not_reaches_nil
    · obtain ⟨term,shown⟩ := restIH later above crossed
      exact onward (List.subset_cons_self ..) shown
  | branch field body rest step inner more converted below remaining bodyIH restIH =>
    rcases reached.cons_cases with rfl | deeper | later
    · obtain ⟨term,computed,present⟩ := converted.exists_mem inside
      have shows : Path.Shows (inner.pathsBelow (above ++ [step.prepend crossed]) []) (key.text,term) :=
        Outline.shows_of_above (below.leafCount_pos body.toList_ne_nil) [] (by simp)
          (Step.mem_members_prepend crossed present)
      exact onward (List.subset_append_left ..) ⟨computed,shows⟩
    · obtain ⟨term,shown⟩ := bodyIH deeper (above ++ [step.prepend crossed]) []
      exact onward (List.subset_append_left ..) shown
    · obtain ⟨term,shown⟩ := restIH later above crossed
      exact onward (List.subset_append_right ..) shown
  | spread name location directives rest fragment written body more found converted within remaining
      bodyIH restIH =>
    rcases reached.cons_cases with rfl | deeper | later
    · obtain ⟨term,shown⟩ := exists_shown_directive converted
        (within.leafCount_pos fragment.selections.toList_ne_nil) inside above _
      exact onward (List.subset_append_left ..) shown
    · simp only [Request.contents,found,Option.map_some,Option.getD_some] at deeper
      obtain ⟨term,shown⟩ := bodyIH deeper above _
      exact onward (List.subset_append_left ..) shown
    · obtain ⟨term,shown⟩ := restIH later above crossed
      exact onward (List.subset_append_right ..) shown
  | inline condition? directives set rest written body more converted within remaining bodyIH restIH =>
    rcases reached.cons_cases with rfl | deeper | later
    · obtain ⟨term,shown⟩ := exists_shown_directive converted
        (within.leafCount_pos set.toList_ne_nil) inside above _
      exact onward (List.subset_append_left ..) shown
    · obtain ⟨term,shown⟩ := bodyIH deeper above _
      exact onward (List.subset_append_left ..) shown
    · obtain ⟨term,shown⟩ := restIH later above crossed
      exact onward (List.subset_append_right ..) shown

/-- Every argument that is reached is shown by a path of the operation, under its key. -/
theorem exists_shown_of_operationPaths_ok {paths : List Path} {selection : Selection}
    (ok : scope.operationPaths = .ok paths)
    (reached : scope.request.Reaches scope.operation.selections.toList selection)
    (inside : (place,key,value) ∈ selection.members) :
    ∃ term, scope.term place value = .ok term ∧ Path.Shows paths (key.text,term) := by
  rw [operationPaths_eq_listPaths] at ok
  obtain ⟨outline,outlined,rfl⟩ := exists_outline scope [] _ paths ok
  exact outlined.exists_shown reached inside [] []

end Scope

end FlatQuery
