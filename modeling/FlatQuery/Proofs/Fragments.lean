import FlatQuery.Proofs.Agreement

/-! Which fragments a batch depends on. A fragment matters only if an operation that runs reaches a
spread of it, and of its definitions only the last one does. So a document may hold any other
fragments, also some that could never be converted, and it may define them in any order. -/

namespace FlatQuery

open Document (Fragment)

namespace Request

/-- An operation that runs reaches a spread of this name, whether or not it is defined. -/
def Uses (request : Request) (name : Name) : Prop :=
  ∃ operation ∈ request.operations, ∃ location directives,
    request.Reaches operation.selections.toList (.spread name location directives)

def definitions (request : Request) (name : Name) : List Fragment :=
  request.fragments.filter (·.name = name)

private theorem fragment?_eq_getLast? (request : Request) (name : Name) :
    request.fragment? name = (request.definitions name).getLast? := by
  rw [fragment?,definitions,← List.head?_filter,List.filter_reverse,List.head?_reverse]

private theorem fragment?_congr {first second : Request} {name : Name}
    (same : second.definitions name = first.definitions name) :
    second.fragment? name = first.fragment? name := by
  rw [fragment?_eq_getLast?,fragment?_eq_getLast?,same]

private theorem definitions_filter {first second : Request} {name : Name} {keep : Fragment → Bool}
    (kept : ∀ fragment ∈ first.definitions name, keep fragment = true)
    (fewer : second.fragments = first.fragments.filter keep) :
    second.definitions name = first.definitions name := by
  rw [definitions,fewer,List.filter_filter]
  apply List.filter_congr
  intro fragment inside
  by_cases named : fragment.name = name
  · have defined : fragment ∈ first.definitions name := List.mem_filter.mpr ⟨inside,by simpa using named⟩
    simp [kept fragment defined]
  · simp [named]

private theorem definitions_eq_of_perm {first second : Request} {name : Name}
    (once : (first.definitions name).length ≤ 1)
    (permuted : second.fragments.Perm first.fragments) :
    second.definitions name = first.definitions name := by
  have same : (second.definitions name).Perm (first.definitions name) := permuted.filter _
  cases found : first.definitions name with
  | nil =>
    rw [found] at same
    exact same.eq_nil
  | cons fragment rest =>
    have alone : rest = [] := by
      rw [found,List.length_cons] at once
      exact List.length_eq_zero_iff.mp (by omega)
    rw [found,alone] at same
    rw [alone]
    exact same.eq_singleton

end Request

namespace Batch

variable (settings : Settings) {first second : Request}

private theorem ofRequest_congr (operations : second.operations = first.operations)
    (values : second.values = first.values)
    (same : ∀ name, first.Uses name → second.fragment? name = first.fragment? name) :
    ofRequest settings second = ofRequest settings first := by
  rw [ofRequest,ofRequest,operations]
  apply extend_congr
  intro operation inside
  have agrees := Scope.agrees_of_same_fragments settings first second operation values ?_
  · exact Scope.operationPaths_congr rfl agrees
  · intro name location directives reached
    exact same name ⟨operation,inside,location,directives,reached⟩

variable (first second) in
/-- Two requests with the same operations and values have the same batch or the same problem if they
agree on the fragments that are used. So unused fragments can be left out and definitions moved, as
long as the definitions of one name keep their order. -/
theorem ofRequest_eq_of_used_fragments (operations : second.operations = first.operations)
    (values : second.values = first.values) :
    ((∀ name, first.Uses name → second.fragment? name = first.fragment? name) →
      ofRequest settings second = ofRequest settings first) ∧
    (∀ keep : Fragment → Bool,
      (∀ fragment ∈ first.fragments, first.Uses fragment.name → keep fragment = true) →
      second.fragments = first.fragments.filter keep →
      ofRequest settings second = ofRequest settings first) ∧
    ((∀ name, first.Uses name → second.definitions name = first.definitions name) →
      ofRequest settings second = ofRequest settings first) ∧
    ((∀ name, first.Uses name → (first.definitions name).length ≤ 1) →
      second.fragments.Perm first.fragments →
      ofRequest settings second = ofRequest settings first) := by
  have congr (same : ∀ name, first.Uses name → second.definitions name = first.definitions name) :
      ofRequest settings second = ofRequest settings first := by
    apply ofRequest_congr settings operations values
    intro name uses
    exact Request.fragment?_congr (same name uses)
  refine ⟨ofRequest_congr settings operations values,?_,congr,?_⟩
  · intro keep kept fewer
    apply congr
    intro name uses
    refine Request.definitions_filter ?_ fewer
    intro fragment defined
    obtain ⟨inside,named⟩ := List.mem_filter.mp defined
    exact kept fragment inside (of_decide_eq_true named ▸ uses)
  · intro once permuted
    apply congr
    intro name uses
    exact Request.definitions_eq_of_perm (once name uses) permuted

def unusedSample : Request where
  operations := [⟨none,.query,.start,[],.single (.spread ⟨"Used",rfl⟩ .start [])⟩]
  -- `Unused` spreads itself and an unknown fragment and asks for a variable that is not declared
  fragments := [
    ⟨⟨"Unused",rfl⟩,⟨"Root",rfl⟩,.cons (.spread ⟨"Unused",rfl⟩ .start [])
      (.cons (.spread ⟨"Missing",rfl⟩ .start [])
        (.single (.leaf ⟨.start,none,⟨"extra",rfl⟩,[(⟨"limit",rfl⟩,.reference ⟨"limit",rfl⟩)],[]⟩)))⟩,
    ⟨⟨"Used",rfl⟩,⟨"Root",rfl⟩,.single (.leaf ⟨.start,none,⟨"shown",rfl⟩,[],[]⟩)⟩]
  values := []

private theorem unusedSample_uses {name : Name} (uses : unusedSample.Uses name) :
    name.text = "Used" := by
  obtain ⟨operation,inside,location,directives,reached⟩ := uses
  cases List.mem_singleton.mp inside
  have only := reached.holds
    (fun selection => selection = .spread ⟨"Used",rfl⟩ .start [] ∨ ∃ field, selection = .leaf field)
    (fun _ inside => .inl (List.mem_singleton.mp inside)) ?_
  · rcases only with same | ⟨_,same⟩
    · cases same
      rfl
    · cases same
  · rintro outer (rfl | ⟨field,rfl⟩) inner inside
    · exact .inr ⟨_,List.mem_singleton.mp inside⟩
    · cases inside

theorem ofRequest_unusedSample :
    (ofRequest .allOff unusedSample).isOk = true ∧
    ofRequest .allOff { unusedSample with
        fragments := unusedSample.fragments.filter (·.name.text = "Used") } =
      ofRequest .allOff unusedSample ∧
    ofRequest .allOff { unusedSample with fragments := unusedSample.fragments.reverse } =
      ofRequest .allOff unusedSample := by
  have dropped := ofRequest_eq_of_used_fragments .allOff unusedSample
    { unusedSample with fragments := unusedSample.fragments.filter (·.name.text = "Used") } rfl rfl
  have reversed := ofRequest_eq_of_used_fragments .allOff unusedSample
    { unusedSample with fragments := unusedSample.fragments.reverse } rfl rfl
  refine ⟨by decide +kernel,dropped.2.1 (·.name.text = "Used") ?_ rfl,reversed.2.2.2 ?_ (List.reverse_perm _)⟩
  · intro fragment _ uses
    exact decide_eq_true (unusedSample_uses uses)
  · intro name uses
    have named : name = ⟨"Used",rfl⟩ := Name.eq_of_text_eq (unusedSample_uses uses)
    subst named
    decide +kernel

end Batch

end FlatQuery
