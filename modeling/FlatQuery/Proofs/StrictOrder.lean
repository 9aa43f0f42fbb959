import FlatQuery.Batch
import Mathlib.Algebra.GroupWithZero.Nat
import Mathlib.Data.List.Forall2

/-! Batches in strict order. Every entry is lowered below all the entries before it, by as many
steps as they are deep together and by nothing else. The written query shows whether any entry has
moved: a path that moves only ever gets longer. -/

namespace FlatQuery

namespace Entry

variable {entry : Entry} {levels : Nat}

theorem depth_le_iff {bound : Nat} :
    entry.depth ≤ bound ↔ ∀ path ∈ entry.paths, path.length ≤ bound + 1 := by
  rw [depth,Nat.sub_le_iff_le_add]
  cases longest : (entry.paths.map List.length).max? with
  | none =>
    have none : entry.paths = [] := by simpa using longest
    simp [none]
  | some length =>
    rw [Option.getD_some,List.max?_le_iff longest,List.forall_mem_map]

theorem length_le_depth {path : Path} (inside : path ∈ entry.paths) :
    path.length ≤ entry.depth + 1 := depth_le_iff.mp (Nat.le_refl entry.depth) path inside

private theorem depth_eq_zero_iff : entry.depth = 0 ↔ ∀ path ∈ entry.paths, path.length < 2 := by
  rw [← Nat.le_zero,depth_le_iff]
  simp only [Nat.zero_add,Nat.lt_succ_iff]

private theorem depth_lower {path : Path} (inside : path ∈ entry.paths) (nonempty : path ≠ []) :
    (entry.lower levels).depth = levels + entry.depth := by
  have moved (path : Path) (present : path ∈ entry.paths) :
      levels + path.length ≤ (entry.lower levels).depth + 1 := by
    have lowered : List.replicate levels (.plain "self") ++ path ∈ (entry.lower levels).paths :=
      List.mem_map_of_mem present
    simpa using length_le_depth lowered
  apply Nat.le_antisymm
  · rw [depth_le_iff,lower,List.forall_mem_map]
    intro path present
    have bound := length_le_depth present
    simp only [List.length_append,List.length_replicate]
    omega
  · -- the path with a step reaches below the padding, and every path ends above the new depth
    have first := moved path inside
    have some := List.length_pos_iff.mpr nonempty
    have deep : entry.depth ≤ (entry.lower levels).depth - levels := by
      rw [depth_le_iff]
      intro path present
      have bound := moved path present
      omega
    omega

def raise (levels : Nat) (entry : Entry) : Entry :=
  { entry with paths := entry.paths.map (List.drop levels) }

private theorem raise_lower (levels : Nat) (entry : Entry) :
    (entry.lower levels).raise levels = entry := by
  have kept (path : Path) :
      List.drop levels (List.replicate levels (.plain "self") ++ path) = path :=
    List.drop_left' List.length_replicate
  rw [raise,lower,List.map_map]
  simp only [Function.comp_def,kept,List.map_id']

theorem lower_eq_self_iff : entry.lower levels = entry ↔ levels = 0 ∨ entry.paths = [] := by
  constructor
  · intro same
    cases given : entry.paths with
    | nil => exact .inr rfl
    | cons path rest =>
      have lengths := congrArg (fun moved : Entry => (moved.paths.map List.length).head?) same
      simp only [lower,given,List.map_cons,List.head?_cons,List.length_append,List.length_replicate,
        Option.some.injEq] at lengths
      exact .inl (by omega)
  · rintro (rfl | none)
    · simp [lower]
    · rw [lower,none,List.map_nil,← none]

end Entry

namespace Batch

/-- The levels of all the entries before a place. -/
def levelsBefore (batch : Batch) (place : Nat) : Nat := ((batch.take place).map Entry.depth).sum

variable {batch : Batch} {entry : Entry}

private theorem levelsBefore_cons_succ (entry : Entry) (rest : Batch) (place : Nat) :
    levelsBefore (entry :: rest) (place + 1) = entry.depth + levelsBefore rest place := by
  simp [levelsBefore]

private theorem levelsBefore_succ {place : Nat} (here : batch[place]? = some entry) :
    batch.levelsBefore (place + 1) = batch.levelsBefore place + entry.depth := by
  obtain ⟨inside,rfl⟩ := List.getElem?_eq_some_iff.mp here
  rw [levelsBefore,levelsBefore,List.take_succ_eq_append_getElem inside,List.map_append,
    List.sum_append]
  simp

private theorem levelsBefore_mono {earlier later : Nat} (ordered : earlier ≤ later) :
    batch.levelsBefore earlier ≤ batch.levelsBefore later := by
  obtain ⟨more,rfl⟩ := Nat.exists_eq_add_of_le ordered
  rw [levelsBefore,levelsBefore,List.take_add]
  simp

private theorem levelsBefore_eq_zero_iff {place : Nat} :
    batch.levelsBefore place = 0 ↔
      ∀ earlier < place, ∀ entry, batch[earlier]? = some entry → entry.depth = 0 := by
  rw [levelsBefore,List.sum_eq_zero_iff_forall_eq_nat,List.forall_mem_map]
  constructor
  · intro flat earlier before entry found
    refine flat entry (List.mem_of_getElem? (i := earlier) ?_)
    rw [List.getElem?_take_of_lt before,found]
  · intro flat entry inside
    obtain ⟨earlier,bound,rfl⟩ := List.mem_take_iff_getElem.mp inside
    exact flat earlier (by omega) _ (List.getElem?_eq_getElem (by omega))

private theorem getElem?_lowerFrom (levels : Nat) (batch : Batch) (place : Nat) :
    (lowerFrom levels batch)[place]? =
      batch[place]?.map (Entry.lower (levels + batch.levelsBefore place)) := by
  induction batch generalizing levels place with
  | nil => simp [lowerFrom]
  | cons entry rest ih =>
    cases place with
    | zero => simp [lowerFrom,levelsBefore]
    | succ place =>
      rw [lowerFrom,List.getElem?_cons_succ,ih,List.getElem?_cons_succ,levelsBefore_cons_succ,
        Nat.add_assoc]

theorem getElem?_inOrder (batch : Batch) (place : Nat) :
    batch.inOrder[place]? = batch[place]?.map (Entry.lower (batch.levelsBefore place)) := by
  rw [inOrder,getElem?_lowerFrom,Nat.zero_add]

private theorem map_id_lowerFrom (levels : Nat) (batch : Batch) :
    (lowerFrom levels batch).map Entry.id = batch.map Entry.id := by
  induction batch generalizing levels with
  | nil => rfl
  | cons entry rest ih => rw [lowerFrom,List.map_cons,ih,List.map_cons,Entry.lower]

/-- At a level of the ordered batch an entry has this step of its own, after the steps that it was
lowered by. -/
def ShowsAt (batch : Batch) (place level : Nat) (step : Step) : Prop :=
  ∃ entry, batch.inOrder[place]? = some entry ∧ ∃ path ∈ entry.paths,
    batch.levelsBefore place ≤ level ∧ path[level]? = some step

private theorem showsAt_iff {place level : Nat} {step : Step} :
    batch.ShowsAt place level step ↔ ∃ entry, batch[place]? = some entry ∧ ∃ path ∈ entry.paths,
      ∃ position, path[position]? = some step ∧ level = batch.levelsBefore place + position := by
  have moved (path : Path) (position : Nat) :
      (List.replicate (batch.levelsBefore place) (.plain "self") ++ path)[
        batch.levelsBefore place + position]? = path[position]? := by
    rw [List.getElem?_append_right (by simp),List.length_replicate,Nat.add_sub_cancel_left]
  constructor
  · rintro ⟨lowered,there,path,inside,start,found⟩
    rw [getElem?_inOrder,Option.map_eq_some_iff] at there
    obtain ⟨entry,here,rfl⟩ := there
    obtain ⟨original,present,rfl⟩ := List.mem_map.mp inside
    obtain ⟨position,rfl⟩ := Nat.exists_eq_add_of_le start
    exact ⟨entry,here,original,present,position,moved original position ▸ found,rfl⟩
  · rintro ⟨entry,here,path,inside,position,found,rfl⟩
    refine ⟨_,by rw [getElem?_inOrder,here,Option.map_some],_,List.mem_map_of_mem inside,
      Nat.le_add_right _ _,?_⟩
    rw [moved,found]

private theorem ShowsAt.le_levelsBefore_succ {place level : Nat} {step : Step}
    (shown : batch.ShowsAt place level step) : level ≤ batch.levelsBefore (place + 1) := by
  obtain ⟨entry,here,path,inside,position,found,rfl⟩ := showsAt_iff.mp shown
  obtain ⟨bound,_⟩ := List.getElem?_eq_some_iff.mp found
  have short := Entry.length_le_depth inside
  rw [levelsBefore_succ here]
  omega

/-- Strict order only puts steps in front: on each path of an entry, one for every level of the
entries before. So what an entry has of its own never stands above what an earlier one has, and the
next entry starts where the deepest path of this one ends. -/
theorem inOrder_lowers_each (batch : Batch) :
    batch.inOrder.map Entry.id = batch.map Entry.id ∧
    (∀ place path : Nat, batch.inOrder[place]?.bind (·.paths[path]?) =
      (batch[place]?.bind (·.paths[path]?)).map
        (List.replicate (batch.levelsBefore place) (.plain "self") ++ ·)) ∧
    batch.inOrder.mapIdx (fun place entry => entry.raise (batch.levelsBefore place)) = batch ∧
    (∀ first second above below step other, first < second → batch.ShowsAt first above step →
      batch.ShowsAt second below other → above ≤ below) ∧
    ∀ place entry lowered, batch[place]? = some entry → batch.inOrder[place]? = some lowered →
      (∃ path ∈ entry.paths, path ≠ []) → batch.levelsBefore (place + 1) = lowered.depth := by
  refine ⟨map_id_lowerFrom 0 batch,?_,?_,?_,?_⟩
  · intro place path
    rw [getElem?_inOrder]
    cases batch[place]? with
    | none => rfl
    | some entry => simp [Entry.lower]
  · apply List.ext_getElem?
    intro place
    rw [List.getElem?_mapIdx,getElem?_inOrder]
    cases batch[place]? with
    | none => rfl
    | some entry => simp [Entry.raise_lower]
  · intro first second above below step other ordered shown follows
    obtain ⟨_,_,_,_,start,_⟩ := follows
    have ends := shown.le_levelsBefore_succ
    have later : batch.levelsBefore (first + 1) ≤ batch.levelsBefore second :=
      levelsBefore_mono ordered
    omega
  · rintro place entry lowered here there ⟨path,inside,nonempty⟩
    rw [getElem?_inOrder,here,Option.map_some,Option.some.injEq] at there
    rw [levelsBefore_succ here,← there,Entry.depth_lower inside nonempty]

-- a field that is called like the padding, an entry without paths, and a path without steps
def uneven : Batch :=
  [⟨"1-1",[[.plain "a",.plain "self"],[.plain "b"]]⟩,⟨"2-1",[]⟩,⟨"3-1",[[],[.plain "c"]]⟩,
    ⟨"4-1",[[.plain "d",.plain "e"]]⟩]

theorem uneven_lowered :
    uneven.ShowsAt 0 1 (.plain "self") ∧ uneven.ShowsAt 3 1 (.plain "d") ∧ 1 ≤ 1 ∧
    uneven.inOrder[2]? = some ⟨"3-1",[[.plain "self"],[.plain "self",.plain "c"]]⟩ ∧
    uneven.levelsBefore 3 = Entry.depth ⟨"3-1",[[.plain "self"],[.plain "self",.plain "c"]]⟩ := by
  obtain ⟨_,_,_,ordered,next⟩ := inOrder_lowers_each uneven
  have own : uneven.ShowsAt 0 1 (.plain "self") :=
    ⟨_,rfl,_,List.mem_cons_self ..,Nat.zero_le 1,rfl⟩
  have later : uneven.ShowsAt 3 1 (.plain "d") := ⟨_,rfl,_,List.mem_cons_self ..,by decide,rfl⟩
  refine ⟨own,later,ordered 0 3 1 1 _ _ (by decide) own later,rfl,next 2 _ _ rfl rfl ?_⟩
  exact ⟨[.plain "c"],by simp,by simp⟩

end Batch

section Lengths

theorem Text.length_intercalate (separator : Char) (pieces : List (List Char)) :
    ([separator].intercalate pieces).length =
      (pieces.map List.length).sum + (pieces.length - 1) := by
  induction pieces with
  | nil => rfl
  | cons piece pieces ih =>
    cases pieces with
    | nil => simp
    | cons second pieces =>
      rw [List.intercalate_cons_cons,List.length_append,List.length_append,ih]
      simp only [List.map_cons,List.sum_cons,List.length_cons,List.length_nil]
      omega

variable {α : Type} {before after : List α}

private theorem eq_or_sum_lt {size : α → Nat}
    (each : List.Forall₂ (fun x y => x = y ∨ size x < size y) before after) :
    before = after ∨ (before.map size).sum < (after.map size).sum := by
  induction each with
  | nil => exact .inl rfl
  | cons head _ ih =>
    simp only [List.map_cons,List.sum_cons]
    rcases head with rfl | head
    · rcases ih with rfl | tail
      · exact .inl rfl
      · exact .inr (by omega)
    · rcases ih with rfl | tail
      · exact .inr (by omega)
      · exact .inr (by omega)

private theorem Text.eq_or_length_intercalate_lt {chars : α → List Char} (separator : Char)
    (each : List.Forall₂ (fun x y => x = y ∨ (chars x).length < (chars y).length) before after) :
    before = after ∨ ([separator].intercalate (before.map chars)).length <
      ([separator].intercalate (after.map chars)).length := by
  rcases eq_or_sum_lt each with same | longer
  · exact .inl same
  · refine .inr ?_
    rw [length_intercalate,length_intercalate,List.map_map,List.map_map,List.length_map,
      List.length_map,each.length_eq]
    exact Nat.add_lt_add_right longer _

end Lengths

private theorem Path.length_chars_lt {levels : Nat} (moved : levels ≠ 0) (path : Path) :
    path.chars.length <
      (Path.chars (List.replicate levels (Step.plain "self") ++ path)).length := by
  have self : (Step.plain "self").chars.length = 4 := by decide
  rw [chars,chars,Text.length_intercalate,Text.length_intercalate]
  simp only [List.map_append,List.map_replicate,List.sum_append,List.sum_replicate_nat,self,
    List.length_append,List.length_map,List.length_replicate]
  omega

private theorem Entry.lower_eq_or_lt (levels : Nat) (entry : Entry) :
    entry = entry.lower levels ∨ entry.chars.length < (entry.lower levels).chars.length := by
  by_cases moved : levels = 0
  · exact .inl (Entry.lower_eq_self_iff.mpr (.inl moved)).symm
  · have each : List.Forall₂ (fun path lowered => path = lowered ∨
        (Path.chars path).length < (Path.chars lowered).length) entry.paths
        (entry.lower levels).paths := by
      rw [lower,List.forall₂_map_right_iff,List.forall₂_same]
      intro path _
      exact .inr (Path.length_chars_lt moved path)
    rcases Text.eq_or_length_intercalate_lt ',' each with same | longer
    · exact .inl (congrArg (Entry.mk entry.id) same)
    · exact .inr longer

namespace Batch

private theorem forall₂_lowerFrom (levels : Nat) (batch : Batch) :
    List.Forall₂ (fun entry lowered => entry = lowered ∨ entry.chars.length < lowered.chars.length)
      batch (lowerFrom levels batch) := by
  induction batch generalizing levels with
  | nil => exact .nil
  | cons entry rest ih => exact .cons (Entry.lower_eq_or_lt levels entry) (ih _)

theorem text_eq_inOrder_iff {batch : Batch} :
    batch.text = batch.inOrder.text ↔ batch.inOrder = batch := by
  constructor
  · intro same
    rcases Text.eq_or_length_intercalate_lt ';' (forall₂_lowerFrom 0 batch) with equal | longer
    · exact equal.symm
    · exact absurd (congrArg List.length (String.ofList_injective same)) (Nat.ne_of_lt longer)
  · intro same
    rw [same]

theorem inOrder_eq_self_iff {batch : Batch} : batch.inOrder = batch ↔
    ∀ place entry, batch[place]? = some entry →
      batch.levelsBefore place = 0 ∨ entry.paths = [] := by
  rw [List.ext_getElem?_iff]
  constructor
  · intro same place entry here
    have lowered := same place
    rw [getElem?_inOrder,here,Option.map_some,Option.some.injEq] at lowered
    exact Entry.lower_eq_self_iff.mp lowered
  · intro kept place
    rw [getElem?_inOrder]
    cases here : batch[place]? with
    | none => rfl
    | some entry => rw [Option.map_some,Entry.lower_eq_self_iff.mpr (kept place entry here)]

theorem inOrder_ne_self_iff {batch : Batch} : batch.inOrder ≠ batch ↔
    ∃ (first second : Nat) (earlier later : Entry), first < second ∧
      batch[first]? = some earlier ∧ batch[second]? = some later ∧ later.paths ≠ [] ∧
      ∃ path ∈ earlier.paths, 2 ≤ path.length := by
  rw [Ne,inOrder_eq_self_iff]
  simp only [levelsBefore_eq_zero_iff,Entry.depth_eq_zero_iff]
  constructor
  · intro moved
    by_contra flat
    apply moved
    intro second later there
    by_cases empty : later.paths = []
    · exact .inr empty
    · refine .inl ?_
      intro first ordered earlier here path inside
      by_contra deep
      exact flat ⟨first,second,earlier,later,ordered,here,there,empty,path,inside,by omega⟩
  · rintro ⟨first,second,earlier,later,ordered,here,there,nonempty,path,inside,deep⟩ kept
    rcases kept second later there with flat | empty
    · have short := flat first ordered earlier here path inside
      omega
    · exact nonempty empty

/-- The query as asked for and as it has to run differ exactly if operations are to run in order and
some operation with a path comes after one with a path of two steps or more. They are the same
exactly if no entry has moved. -/
theorem differ_iff_moved (settings : Settings) (batch : Batch) :
    ((QueryPair.ofBatch settings batch).differ = true ↔
      settings.strictOrder = true ∧ ∃ (first second : Nat) (earlier later : Entry),
        first < second ∧ batch[first]? = some earlier ∧ batch[second]? = some later ∧
        later.paths ≠ [] ∧ ∃ path ∈ earlier.paths, 2 ≤ path.length) ∧
    ((QueryPair.ofBatch settings batch).differ = false ↔
      settings.strictOrder = false ∨ batch.inOrder = batch) := by
  have same : (QueryPair.ofBatch settings batch).differ = false ↔
      settings.strictOrder = false ∨ batch.inOrder = batch := by
    rw [QueryPair.differ,decide_eq_false_iff_not,Decidable.not_not,QueryPair.ofBatch]
    cases settings.strictOrder with
    | false => simp
    | true => simp [text_eq_inOrder_iff]
  refine ⟨?_,same⟩
  rw [← Bool.not_eq_false,same.not,not_or,Bool.not_eq_false,← inOrder_ne_self_iff]

example : (QueryPair.ofBatch ⟨false,false,true⟩ uneven).differ = true := by decide +kernel

end Batch

end FlatQuery
