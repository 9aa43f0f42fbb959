import FlatQuery.Text.Quoted

/-! Cutting a text at a separator, except inside strings and brackets. Joined pieces come back
exactly if no piece shows the separator at its top and each piece that another one follows ends
at its top, outside all strings and brackets. -/

namespace FlatQuery.Text

/-- Where a reader of a text stands: so many brackets are open, outside a string, in a string,
or after a backslash in a string. -/
inductive Cursor where
  | plain (depth : Nat)
  | quoted (depth : Nat)
  | escaped (depth : Nat)
deriving DecidableEq

namespace Cursor

def isOpening (c : Char) : Bool := c == '(' || c == '[' || c == '{' || c == '<'

def isClosing (c : Char) : Bool := c == ')' || c == ']' || c == '}' || c == '>'

def next : Cursor → Char → Cursor
  | plain depth, c =>
    if c = '"' then quoted depth
    else if isOpening c then plain (depth + 1)
    else if isClosing c then plain (depth - 1)
    else plain depth
  | quoted depth, c =>
    if c = '"' then plain depth else if c = '\\' then escaped depth else quoted depth
  | escaped depth, _ => quoted depth

def run (cursor : Cursor) (cs : List Char) : Cursor := cs.foldl next cursor

def top : Cursor := plain 0

@[simp] theorem run_nil (cursor : Cursor) : cursor.run [] = cursor := rfl

@[simp] theorem run_cons (cursor : Cursor) (c : Char) (cs : List Char) :
    cursor.run (c :: cs) = (cursor.next c).run cs := rfl

@[simp] theorem run_append (cursor : Cursor) (first second : List Char) :
    cursor.run (first ++ second) = (cursor.run first).run second := List.foldl_append ..

end Cursor

def cutFrom (separator : Char) : Cursor → List Char → List (List Char)
  | _, [] => [[]]
  | cursor, c :: cs =>
    if cursor = .top ∧ c = separator then [] :: cutFrom separator .top cs
    else (cutFrom separator (cursor.next c) cs).modifyHead (c :: ·)

/-- The pieces of a text between the separators outside all strings and brackets. -/
def cut (separator : Char) (cs : List Char) : List (List Char) := cutFrom separator .top cs

def separators : List Char := ['.', ',', ';']

/-- The separator stands in a text at a place outside all strings and brackets. -/
def Exposes (separator : Char) (cursor : Cursor) (cs : List Char) : Prop :=
  ∃ before after, cs = before ++ separator :: after ∧ cursor.run before = .top

variable {separator : Char} {cursor : Cursor}

theorem not_exposes_nil : ¬ Exposes separator cursor [] := by
  intro exposed
  obtain ⟨before,after,same,_⟩ := exposed
  simp at same

theorem exposes_cons_iff {c : Char} {cs : List Char} :
    Exposes separator cursor (c :: cs) ↔
      (cursor = .top ∧ c = separator) ∨ Exposes separator (cursor.next c) cs := by
  constructor
  · intro exposed
    obtain ⟨before,after,same,reached⟩ := exposed
    cases before with
    | nil =>
      cases same
      exact Or.inl ⟨reached,rfl⟩
    | cons first before =>
      cases same
      exact Or.inr ⟨before,after,rfl,reached⟩
  · intro either
    rcases either with ⟨reached,rfl⟩ | ⟨before,after,rfl,reached⟩
    · exact ⟨[],cs,rfl,reached⟩
    · exact ⟨c :: before,after,rfl,reached⟩

theorem exposes_append_iff {first second : List Char} :
    Exposes separator cursor (first ++ second) ↔
      Exposes separator cursor first ∨ Exposes separator (cursor.run first) second := by
  induction first generalizing cursor with
  | nil => simp [not_exposes_nil]
  | cons c cs ih => simp only [List.cons_append,exposes_cons_iff,ih,Cursor.run_cons,or_assoc]

theorem cutFrom_ne_nil (separator : Char) (cursor : Cursor) (cs : List Char) :
    cutFrom separator cursor cs ≠ [] := by
  induction cs generalizing cursor with
  | nil => simp [cutFrom]
  | cons c cs ih =>
    rw [cutFrom]
    split
    · simp
    · simp [ih]

private theorem intercalate_cutFrom (cs : List Char) :
    [separator].intercalate (cutFrom separator cursor cs) = cs := by
  induction cs generalizing cursor with
  | nil => simp [cutFrom]
  | cons c cs ih =>
    rw [cutFrom]
    split
    next exposed =>
      rw [List.intercalate_cons_of_ne_nil (cutFrom_ne_nil separator .top cs),ih,exposed.2]
      rfl
    next hidden =>
      have joined : [separator].intercalate (cutFrom separator (cursor.next c) cs) = cs := ih
      obtain ⟨first,more,pieces⟩ :=
        List.exists_cons_of_ne_nil (cutFrom_ne_nil separator (cursor.next c) cs)
      rw [pieces] at joined ⊢
      rw [List.modifyHead_cons,List.intercalate_cons_cons_left,joined]

theorem intercalate_cut (separator : Char) (cs : List Char) :
    [separator].intercalate (cut separator cs) = cs := intercalate_cutFrom cs

private theorem cutFrom_append (piece rest : List Char)
    (hidden : ¬ Exposes separator cursor piece) :
    cutFrom separator cursor (piece ++ rest) =
      (cutFrom separator (cursor.run piece) rest).modifyHead (piece ++ ·) := by
  induction piece generalizing cursor with
  | nil =>
    change cutFrom separator cursor rest = (cutFrom separator cursor rest).modifyHead id
    rw [List.modifyHead_id,id]
  | cons c cs ih =>
    rw [exposes_cons_iff,not_or] at hidden
    rw [List.cons_append,cutFrom,if_neg hidden.1,ih hidden.2,List.modifyHead_modifyHead]
    rfl

private theorem cut_of_not_exposes {piece : List Char} (hidden : ¬ Exposes separator .top piece) :
    cut separator piece = [piece] := by
  have single := cutFrom_append piece [] hidden
  rw [List.append_nil] at single
  rw [cut,single]
  simp [cutFrom]

private theorem cutFrom_of_exposes (piece rest : List Char)
    (exposed : Exposes separator cursor piece) :
    ∃ first more, cutFrom separator cursor (piece ++ rest) = first :: more ∧
      first.length < piece.length := by
  induction piece generalizing cursor with
  | nil => exact absurd exposed not_exposes_nil
  | cons c cs ih =>
    rw [List.cons_append,cutFrom]
    split
    next here => exact ⟨[],_,rfl,by simp⟩
    next hidden =>
      obtain ⟨first,more,pieces,shorter⟩ := ih ((exposes_cons_iff.mp exposed).resolve_left hidden)
      refine ⟨c :: first,more,?_,by simpa using shorter⟩
      rw [pieces,List.modifyHead_cons]

/-- Every piece that another one follows ends outside all strings and brackets. -/
def Closing (pieces : List (List Char)) : Prop :=
  pieces.Pairwise fun piece _ => Cursor.top.run piece = .top

theorem closing_cons_iff {piece : List Char} {pieces : List (List Char)} (more : pieces ≠ []) :
    Closing (piece :: pieces) ↔ Cursor.top.run piece = .top ∧ Closing pieces := by
  obtain ⟨second,rest,rfl⟩ := List.exists_cons_of_ne_nil more
  simp only [Closing,List.pairwise_cons (a := piece)]
  constructor
  · intro both
    exact ⟨both.1 second (by simp),both.2⟩
  · intro both
    exact ⟨fun _ _ => both.1,both.2⟩

/-- Joined pieces are cut apart again exactly if none of them shows the separator and each but the
last is closed. -/
theorem cut_intercalate_iff {pieces : List (List Char)} (nonempty : pieces ≠ []) :
    cut separator ([separator].intercalate pieces) = pieces ↔
      (∀ piece ∈ pieces, ¬ Exposes separator .top piece) ∧ Closing pieces := by
  induction pieces with
  | nil => exact absurd rfl nonempty
  | cons piece pieces ih =>
    by_cases exposed : Exposes separator .top piece
    · obtain ⟨rest,joined⟩ : ∃ rest, [separator].intercalate (piece :: pieces) = piece ++ rest := by
        cases pieces with
        | nil => exact ⟨[],by simp⟩
        | cons second pieces => exact ⟨_,List.intercalate_cons_cons.trans (List.append_assoc ..)⟩
      obtain ⟨first,more,computed,shorter⟩ := cutFrom_of_exposes piece rest exposed
      rw [joined,cut,computed]
      constructor
      · intro same
        cases same
        omega
      · intro both
        exact absurd exposed (both.1 piece (by simp))
    · cases pieces with
      | nil => simp [cut_of_not_exposes exposed,exposed,Closing]
      | cons second pieces =>
        rw [List.intercalate_cons_cons,List.append_assoc,List.singleton_append,cut,
          cutFrom_append _ _ exposed,closing_cons_iff (by simp),List.forall_mem_cons]
        by_cases closed : Cursor.top.run piece = .top
        · rw [closed,cutFrom,if_pos ⟨rfl,rfl⟩]
          simpa [exposed,closed,cut] using ih (by simp)
        · -- The separator is not seen, so the first piece runs on behind `piece`.
          rw [cutFrom,if_neg (fun here => closed here.1),List.modifyHead_modifyHead]
          obtain ⟨first,more,computed⟩ := List.exists_cons_of_ne_nil (cutFrom_ne_nil separator
            ((Cursor.top.run piece).next separator) ([separator].intercalate (second :: pieces)))
          simp [computed,closed]

section Joining

variable {joint : Char} {pieces : List (List Char)}

private theorem run_intercalate_iff (plain : Cursor.top.next joint = .top)
    (closing : Closing pieces) :
    Cursor.top.run ([joint].intercalate pieces) = .top ↔
      ∀ piece ∈ pieces, Cursor.top.run piece = .top := by
  induction pieces with
  | nil => simp
  | cons piece pieces ih =>
    cases pieces with
    | nil => simp
    | cons second pieces =>
      obtain ⟨closed,rest⟩ := (closing_cons_iff (by simp)).mp closing
      rw [List.intercalate_cons_cons,Cursor.run_append,Cursor.run_append,closed,Cursor.run_cons,
        plain,Cursor.run_nil,ih rest,List.forall_mem_cons]
      simp [closed]

private theorem not_exposes_intercalate_iff (plain : Cursor.top.next joint = .top)
    (other : joint ≠ separator) (closing : Closing pieces) :
    ¬ Exposes separator .top ([joint].intercalate pieces) ↔
      ∀ piece ∈ pieces, ¬ Exposes separator .top piece := by
  induction pieces with
  | nil => simp [not_exposes_nil]
  | cons piece pieces ih =>
    cases pieces with
    | nil => simp
    | cons second pieces =>
      obtain ⟨closed,rest⟩ := (closing_cons_iff (by simp)).mp closing
      rw [List.intercalate_cons_cons,exposes_append_iff,exposes_append_iff,Cursor.run_append,closed,
        exposes_cons_iff,Cursor.run_cons,plain,Cursor.run_nil,not_or,ih rest,List.forall_mem_cons]
      simp [not_exposes_nil,other]

structure Gathers (separator : Char) (pieces : List (List Char)) (text : List Char) : Prop where
  nonempty : pieces ≠ []
  closed_iff : Closing pieces →
    (Cursor.top.run text = .top ↔ ∀ piece ∈ pieces, Cursor.top.run piece = .top)
  hidden_iff : Closing pieces →
    (¬ Exposes separator .top text ↔ ∀ piece ∈ pieces, ¬ Exposes separator .top piece)

theorem gathers_intercalate (plain : Cursor.top.next joint = .top) (other : joint ≠ separator)
    (nonempty : pieces ≠ []) : Gathers separator pieces ([joint].intercalate pieces) :=
  ⟨nonempty,run_intercalate_iff plain,not_exposes_intercalate_iff plain other⟩

variable {γ : Type} {groups : List γ} {parts : γ → List (List Char)} {joined : γ → List Char}

theorem closing_flatMap_iff (gathers : ∀ group ∈ groups, Gathers separator (parts group) (joined group)) :
    Closing (groups.flatMap parts) ↔
      (∀ group ∈ groups, Closing (parts group)) ∧ Closing (groups.map joined) := by
  simp only [Closing,List.pairwise_flatMap,List.pairwise_map]
  apply and_congr_right
  intro within
  apply List.Pairwise.iff_of_mem
  intro group other inside later
  rw [(gathers group inside).closed_iff (within group inside)]
  obtain ⟨piece,present⟩ := List.exists_mem_of_ne_nil _ (gathers other later).nonempty
  constructor
  · intro closed first here
    exact closed first here piece present
  · intro closed first here _ _
    exact closed first here

theorem gathers_flatMap (plain : Cursor.top.next joint = .top) (other : joint ≠ separator)
    (nonempty : groups ≠ [])
    (gathers : ∀ group ∈ groups, Gathers separator (parts group) (joined group)) :
    Gathers separator (groups.flatMap parts) ([joint].intercalate (groups.map joined)) where
  nonempty := by
    obtain ⟨group,inside⟩ := List.exists_mem_of_ne_nil _ nonempty
    obtain ⟨piece,present⟩ := List.exists_mem_of_ne_nil _ (gathers group inside).nonempty
    exact List.ne_nil_of_mem (List.mem_flatMap.mpr ⟨group,inside,present⟩)
  closed_iff closing := by
    obtain ⟨within,between⟩ := (closing_flatMap_iff gathers).mp closing
    rw [run_intercalate_iff plain between,List.forall_mem_map,List.forall_mem_flatMap]
    exact forall₂_congr fun group inside => (gathers group inside).closed_iff (within group inside)
  hidden_iff closing := by
    obtain ⟨within,between⟩ := (closing_flatMap_iff gathers).mp closing
    rw [not_exposes_intercalate_iff plain other between,List.forall_mem_map,List.forall_mem_flatMap]
    exact forall₂_congr fun group inside => (gathers group inside).hidden_iff (within group inside)

theorem cut_nested_iff {apart : List Char → Prop} {inner : γ → Prop} (nonempty : groups ≠ [])
    (gathers : ∀ group ∈ groups, Gathers separator (parts group) (joined group))
    (within : ∀ group ∈ groups,
      (inner group ↔ (∀ piece ∈ parts group, apart piece) ∧ Closing (parts group))) :
    (cut separator ([separator].intercalate (groups.map joined)) = groups.map joined ∧
        ∀ group ∈ groups, inner group) ↔
      (∀ piece ∈ groups.flatMap parts, apart piece ∧ ¬ Exposes separator .top piece) ∧
        Closing (groups.flatMap parts) := by
  rw [forall₂_congr within,cut_intercalate_iff (by simpa using nonempty),closing_flatMap_iff gathers,
    List.forall_mem_map,List.forall_mem_flatMap]
  constructor
  · intro both
    obtain ⟨⟨hidden,between⟩,inside⟩ := both
    refine ⟨?_,fun group present => (inside group present).2,between⟩
    intro group present piece here
    obtain ⟨kept,closing⟩ := inside group present
    have unseen := ((gathers group present).hidden_iff closing).mp (hidden group present)
    exact ⟨kept piece here,unseen piece here⟩
  · intro both
    obtain ⟨kept,closing,between⟩ := both
    refine ⟨⟨?_,between⟩,?_⟩
    · intro group present
      rw [(gathers group present).hidden_iff (closing group present)]
      exact fun piece here => (kept group present piece here).2
    · intro group present
      exact ⟨fun piece here => (kept group present piece here).1,closing group present⟩

end Joining

end FlatQuery.Text
