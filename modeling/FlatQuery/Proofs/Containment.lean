import FlatQuery.Proofs.Batches
import FlatQuery.Proofs.Provenance

/-! Whether the steps of a batch can be read back from its query by cutting it at semicolons, then
at commas, then at points. They can be exactly if each step keeps to itself, and only the keys of
submitted objects can make a step do otherwise. -/

namespace FlatQuery

open Text (Exposes Closing cut)

namespace Text

/-- The texts of the steps of each path of each entry of a query. -/
def readBack (cs : List Char) : List (List (List (List Char))) :=
  (cut ';' cs).map fun entry => (cut ',' entry).map (cut '.')

end Text

def Entry.steps (entry : Entry) : List Step := entry.paths.flatten

namespace Batch

def steps (batch : Batch) : List Step := batch.flatMap Entry.steps

def stepChars (batch : Batch) : List (List (List (List Char))) :=
  batch.map fun entry => entry.paths.map fun path => path.map Step.chars

structure Full (batch : Batch) : Prop where
  entries : batch ≠ []
  paths : ∀ entry ∈ batch, entry.paths ≠ []
  steps : ∀ entry ∈ batch, ∀ path ∈ entry.paths, path ≠ []

/-- The text of a step shows no separator outside strings and brackets, and if another step
follows it leaves no string or bracket open. -/
structure Contained (batch : Batch) : Prop where
  hidden : ∀ step ∈ batch.steps, ∀ separator ∈ Text.separators, ¬ Exposes separator .top step.chars
  closing : Closing (batch.steps.map Step.chars)

end Batch

private theorem map_eq_map_iff_of_leftInverse {α β γ : Type} {f : α → β} {g : γ → β} {h : γ → α}
    (undo : β → α) (undone : ∀ x, undo (f x) = x) (joined : ∀ y, undo (g y) = h y) {xs : List α}
    {ys : List γ} :
    xs.map f = ys.map g ↔ xs = ys.map h ∧ ∀ y ∈ ys, f (h y) = g y := by
  constructor
  · intro same
    have before : xs = ys.map h := by
      have mapped := congrArg (List.map undo) same
      simpa [Function.comp_def,undone,joined] using mapped
    subst before
    refine ⟨rfl,?_⟩
    simpa using same
  · intro both
    rw [both.1,List.map_map]
    exact List.map_congr_left both.2

private theorem Batch.readBack_eq_stepChars_iff (batch : Batch) :
    Text.readBack batch.chars = batch.stepChars ↔
      cut ';' batch.chars = batch.map Entry.chars ∧
      ∀ entry ∈ batch, cut ',' entry.chars = entry.paths.map Path.chars ∧
        ∀ path ∈ entry.paths, cut '.' path.chars = path.map Step.chars := by
  have below (entry : Entry) :
      (cut ',' entry.chars).map (cut '.') = entry.paths.map (fun path => path.map Step.chars) ↔
        cut ',' entry.chars = entry.paths.map Path.chars ∧
          ∀ path ∈ entry.paths, cut '.' path.chars = path.map Step.chars :=
    map_eq_map_iff_of_leftInverse ['.'].intercalate (Text.intercalate_cut '.') fun _ => rfl
  -- A piece comes back by joining what it is cut into, so the sides agree before they are cut further.
  simp only [← below]
  apply map_eq_map_iff_of_leftInverse fun pieces => [','].intercalate (pieces.map ['.'].intercalate)
  · intro entry
    simp [Function.comp_def,Text.intercalate_cut]
  · intro entry
    rw [List.map_map]
    rfl

theorem Entry.map_steps (entry : Entry) :
    entry.steps.map Step.chars = entry.paths.flatMap fun path => path.map Step.chars := by
  rw [steps,List.map_flatten]
  rfl

theorem Batch.map_steps (batch : Batch) :
    batch.steps.map Step.chars = batch.flatMap fun entry => entry.steps.map Step.chars :=
  List.map_flatMap ..

namespace Batch.Full

variable {batch : Batch} {entry : Entry}

private theorem gathers_path (full : batch.Full) (inside : entry ∈ batch) {separator : Char}
    (other : '.' ≠ separator) (path : Path) (present : path ∈ entry.paths) :
    Text.Gathers separator (path.map Step.chars) path.chars :=
  Text.gathers_intercalate rfl other (by simpa using full.steps entry inside path present)

private theorem gathers_entry (full : batch.Full) (entry : Entry) (inside : entry ∈ batch) :
    Text.Gathers ';' (entry.steps.map Step.chars) entry.chars := by
  rw [entry.map_steps]
  exact Text.gathers_flatMap rfl (by decide) (full.paths entry inside)
    (full.gathers_path inside (by decide))

private theorem cut_path_iff (full : batch.Full) (inside : entry ∈ batch) (path : Path)
    (present : path ∈ entry.paths) :
    cut '.' path.chars = path.map Step.chars ↔
      (∀ piece ∈ path.map Step.chars, ¬ Exposes '.' .top piece) ∧ Closing (path.map Step.chars) :=
  Text.cut_intercalate_iff (by simpa using full.steps entry inside path present)

private theorem cut_entry_iff (full : batch.Full) (entry : Entry) (inside : entry ∈ batch) :
    (cut ',' entry.chars = entry.paths.map Path.chars ∧
        ∀ path ∈ entry.paths, cut '.' path.chars = path.map Step.chars) ↔
      (∀ piece ∈ entry.steps.map Step.chars, ¬ Exposes '.' .top piece ∧ ¬ Exposes ',' .top piece) ∧
        Closing (entry.steps.map Step.chars) := by
  rw [entry.map_steps]
  exact Text.cut_nested_iff (full.paths entry inside) (full.gathers_path inside (by decide))
    (full.cut_path_iff inside)

theorem readBack_chars_iff (full : batch.Full) :
    Text.readBack batch.chars = batch.stepChars ↔ batch.Contained := by
  have nested := Text.cut_nested_iff full.entries full.gathers_entry full.cut_entry_iff
  rw [← batch.map_steps,List.forall_mem_map] at nested
  rw [readBack_eq_stepChars_iff]
  refine nested.trans ?_
  constructor
  · intro both
    refine ⟨?_,both.2⟩
    intro step within
    obtain ⟨⟨point,comma⟩,semicolon⟩ := both.1 step within
    simpa [Text.separators] using ⟨point,comma,semicolon⟩
  · intro contained
    refine ⟨?_,contained.closing⟩
    intro step within
    have hidden := contained.hidden step within
    simp only [Text.separators,List.forall_mem_cons] at hidden
    exact ⟨⟨hidden.1,hidden.2.1⟩,hidden.2.2.1⟩

end Batch.Full

namespace Batch

variable {settings : Settings} {request : Request} {batch : Batch}

theorem full_of_ofRequest_ok (nonempty : request.operations ≠ [])
    (ok : ofRequest settings request = .ok batch) : batch.Full := by
  have each : ∀ entry ∈ batch, entry.paths ≠ [] ∧ ∀ path ∈ entry.paths, path ≠ [] := by
    refine forall_mem_of_ofRequest_ok (fun paths => paths ≠ [] ∧ ∀ path ∈ paths, path ≠ [])
      ?_ ?_ ok
    · intro first second before after
      exact ⟨List.append_ne_nil_of_left_ne_nil before.1 second,
        List.forall_mem_append.mpr ⟨before.2,after.2⟩⟩
    · intro operation _ paths computed
      exact Scope.full_of_operationPaths_ok computed
  exact ⟨ne_nil_of_ofRequest_ok nonempty ok,fun entry inside => (each entry inside).1,
    fun entry inside => (each entry inside).2⟩

theorem tame_of_ofRequest_ok (balanced : Json.KeysBalanced request.values)
    (ok : ofRequest settings request = .ok batch) : ∀ step ∈ batch.steps, step.Tame := by
  intro step within
  obtain ⟨entry,inside,here⟩ := List.mem_flatMap.mp within
  obtain ⟨path,present,last⟩ := List.mem_flatten.mp here
  refine forall_mem_of_ofRequest_ok (fun paths => ∀ path ∈ paths, ∀ step ∈ path, step.Tame)
    ?_ ?_ ok entry inside path present step last
  · intro first second before after
    exact List.forall_mem_append.mpr ⟨before,after⟩
  · intro operation _ paths computed
    exact Scope.tame_of_operationPaths_ok balanced computed

private theorem contained_of_tame (tame : ∀ step ∈ batch.steps, step.Tame) : batch.Contained where
  hidden step within := (Step.keeps_chars (tame step within)).hidden
  closing := by
    rw [Closing,List.pairwise_map]
    apply List.pairwise_of_forall_mem_list
    intro step within _ _
    exact (Step.keeps_chars (tame step within)).closed

/-- The steps of a batch can be read back from its query exactly if they keep to themselves, and
they do if the keys of submitted objects are balanced: no other text that a client writes gets out
of its place. -/
theorem readBack_requested_iff (parse : Document.Parser) (settings : Settings)
    (submission : Submission) (batch : Batch)
    (ok : ofSubmission settings submission parse = .ok batch) :
    (Text.readBack (QueryPair.ofBatch settings batch).requested.toList = batch.stepChars ↔
        batch.Contained) ∧
      (Json.KeysBalanced submission.values →
        Text.readBack (QueryPair.ofBatch settings batch).requested.toList = batch.stepChars) := by
  obtain ⟨request,accepted,gathered⟩ := ofSubmission_ok_iff.mp ok
  obtain ⟨document,_,chosen⟩ := Request.exists_document_of_ofSubmission_ok accepted
  obtain ⟨selected,_,values⟩ := Request.ofDocument_ok_iff.mp chosen
  have full := full_of_ofRequest_ok (Request.ne_nil_of_select_ok selected) gathered
  have written : (QueryPair.ofBatch settings batch).requested.toList = batch.chars :=
    String.toList_ofList
  rw [written,full.readBack_chars_iff]
  refine ⟨Iff.rfl,?_⟩
  intro balanced
  rw [← values] at balanced
  exact contained_of_tame (tame_of_ofRequest_ok balanced gathered)

def submitKey (key : String) : Submission where
  text := "query Q($v: T) { a(x: $v) b }"
  values := [("v",.object [(key,.integer 1)])]
  several := false
  operationName? := none

private theorem keysBalanced_submitKey {key : String} (flat : key.toList.all Text.isFlat = true) :
    Json.KeysBalanced (submitKey key).values := by
  have balanced := Text.balanced_of_isFlat flat
  simpa [Json.KeysBalanced,submitKey,Json.keys,Json.memberKeys] using balanced

theorem readBack_separators_in_key :
    ∃ batch, ofSubmission .allOff (submitKey "c.d,e;f") = .ok batch ∧ batch.Contained ∧
      Text.readBack (QueryPair.ofBatch .allOff batch).requested.toList = batch.stepChars := by
  have computed : ((ofSubmission .allOff (submitKey "c.d,e;f")).toOption.any fun _ => true) = true := by
    decide +kernel
  obtain ⟨batch,ok,_⟩ := exists_ok_of_any computed
  have both := readBack_requested_iff Document.parse .allOff (submitKey "c.d,e;f") batch ok
  have same := both.2 (keysBalanced_submitKey rfl)
  exact ⟨batch,ok,both.1.mp same,same⟩

/-- A key that closes the brackets it stands in, adds a step and a path, and opens brackets again. -/
def escapingKey : String := "\x7d).evil,c(x:\x7by"

theorem readBack_brackets_in_key :
    ∃ batch, ofSubmission .allOff (submitKey escapingKey) = .ok batch ∧
      (QueryPair.ofBatch .allOff batch).requested = "a(x:\x7b\x7d).evil,c(x:\x7by:1\x7d),b" ∧
      Text.readBack (QueryPair.ofBatch .allOff batch).requested.toList ≠ batch.stepChars := by
  have computed : ((ofSubmission .allOff (submitKey escapingKey)).toOption.any fun batch =>
      (QueryPair.ofBatch .allOff batch).requested = "a(x:\x7b\x7d).evil,c(x:\x7by:1\x7d),b" ∧
      Text.readBack (QueryPair.ofBatch .allOff batch).requested.toList ≠ batch.stepChars) = true := by
    decide +kernel
  obtain ⟨batch,ok,escaped⟩ := exists_ok_of_any computed
  exact ⟨batch,ok,of_decide_eq_true escaped⟩

end Batch

end FlatQuery
