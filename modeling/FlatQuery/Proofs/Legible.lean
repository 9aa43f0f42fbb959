import FlatQuery.Decimal.Digits
import FlatQuery.Text.Quoted

/-! Texts that can be read in one way only. What is written is legible if it can be told from what
else may stand in its place, and if one sees where it ends, once it is known which characters can
come behind it. Legible parts put one after the other, in brackets or in a row are legible again. -/

namespace FlatQuery.Text

def Ends (stop : Char → Bool) (cs : List Char) : Prop := ∀ c ∈ cs.head?, stop c = true

def Begins (stop : Char → Bool) (cs : List Char) : Prop := ∃ c ∈ cs.head?, stop c = false

/-- Before a stop, the text of `x` is the text of no `y` that shows differently. -/
def Legible {α β : Type} (stop : Char → Bool) (valid : α → Prop) (chars : α → List Char)
    (view : α → β) (x : α) : Prop :=
  ∀ y, valid y → ∀ rest other, Ends stop rest → Ends stop other →
    chars x ++ rest = chars y ++ other → view x = view y ∧ rest = other

section

variable {stop further : Char → Bool} {cs rest : List Char}

theorem ends_nil : Ends stop [] := by
  intro c inside
  cases inside

theorem ends_cons {c : Char} (stops : stop c = true) : Ends stop (c :: cs) := by
  intro first inside
  cases inside
  exact stops

theorem Ends.append (front : Ends stop cs) (back : Ends stop rest) : Ends stop (cs ++ rest) := by
  cases cs with
  | nil => exact back
  | cons c cs => exact ends_cons (front c rfl)

theorem Ends.mono (wider : ∀ c, stop c = true → further c = true) (ends : Ends stop cs) :
    Ends further cs :=
  fun c inside => wider c (ends c inside)

theorem begins_cons {c : Char} (starts : stop c = false) : Begins stop (c :: cs) := ⟨c,rfl,starts⟩

theorem Begins.mono (wider : ∀ c, stop c = true → further c = true) (begins : Begins further cs) :
    Begins stop cs := by
  obtain ⟨c,inside,starts⟩ := begins
  refine ⟨c,inside,?_⟩
  rw [Bool.eq_false_iff] at starts ⊢
  exact fun stops => starts (wider c stops)

theorem Begins.append (begins : Begins stop cs) : Begins stop (cs ++ rest) := by
  obtain ⟨c,inside,starts⟩ := begins
  refine ⟨c,?_,starts⟩
  rw [List.head?_append,inside]
  rfl

theorem Begins.not_ends (begins : Begins stop cs) : ¬ Ends stop cs := by
  intro ends
  obtain ⟨c,inside,starts⟩ := begins
  rw [ends c inside] at starts
  cases starts

end

theorem append_inj_of_all {kind : Char → Bool} {first second rest other : List Char}
    (inside : first.all kind = true) (within : second.all kind = true)
    (ends : Ends (!kind ·) rest) (stops : Ends (!kind ·) other)
    (same : first ++ rest = second ++ other) : first = second ∧ rest = other := by
  induction first generalizing second with
  | nil =>
    cases second with
    | nil => exact ⟨rfl,same⟩
    | cons c cs =>
      rw [List.all_cons,Bool.and_eq_true] at within
      rw [List.nil_append] at same
      have apart := ends c (by rw [same]; rfl)
      simp [within.1] at apart
  | cons c cs ih =>
    rw [List.all_cons,Bool.and_eq_true] at inside
    cases second with
    | nil =>
      rw [List.nil_append] at same
      have apart := stops c (by rw [← same]; rfl)
      simp [inside.1] at apart
    | cons d ds =>
      rw [List.all_cons,Bool.and_eq_true] at within
      rw [List.cons_append,List.cons_append,List.cons.injEq] at same
      obtain ⟨equal,remaining⟩ := ih inside.2 within.2 same.2
      exact ⟨by rw [same.1,equal],remaining⟩

section Runs

variable {kind : Char → Bool} {front rest : List Char}

theorem takeWhile_append_of_all (inside : front.all kind = true) (ends : Ends (!kind ·) rest) :
    (front ++ rest).takeWhile kind = front := by
  rw [List.takeWhile_append_of_pos (List.all_eq_true.mp inside)]
  cases rest with
  | nil => exact List.append_nil front
  | cons c rest =>
    have other : kind c = false := by simpa using ends c rfl
    rw [List.takeWhile_cons_of_neg (by simp [other]),List.append_nil]

theorem dropWhile_append_of_all (inside : front.all kind = true) (ends : Ends (!kind ·) rest) :
    (front ++ rest).dropWhile kind = rest := by
  have whole := List.takeWhile_append_dropWhile (p := kind) (l := front ++ rest)
  rw [takeWhile_append_of_all inside ends] at whole
  exact List.append_cancel_left whole

theorem ends_dropWhile (kind : Char → Bool) (cs : List Char) : Ends (!kind ·) (cs.dropWhile kind) := by
  intro c inside
  have other := List.head?_dropWhile_not kind cs
  rw [inside] at other
  simpa using other

end Runs

namespace Legible

variable {α β γ : Type} {stop further : Char → Bool} {valid : α → Prop}
variable {chars first second : α → List Char} {view : α → β} {other : α → γ} {x : α}

theorem of_all {kind : Char → Bool} (made : ∀ y, valid y → (chars y).all kind = true)
    (apart : ∀ c, stop c = true → kind c = false) (own : valid x) :
    Legible stop valid chars chars x := by
  have wider : ∀ c, stop c = true → (!kind c) = true := by
    intro c stops
    rw [apart c stops]
    rfl
  intro y allowed rest other ends stops same
  exact append_inj_of_all (made x own) (made y allowed) (ends.mono wider) (stops.mono wider) same

theorem narrow (wider : ∀ c, further c = true → stop c = true)
    (legible : Legible stop valid chars view x) : Legible further valid chars view x := by
  intro y allowed rest behind ends stops same
  exact legible y allowed rest behind (ends.mono wider) (stops.mono wider) same

theorem look (legible : Legible stop valid chars view x)
    (coarser : ∀ y, valid y → view x = view y → other x = other y) :
    Legible stop valid chars other x := by
  intro y allowed rest behind ends stops same
  obtain ⟨shown,remaining⟩ := legible y allowed rest behind ends stops same
  exact ⟨coarser y allowed shown,remaining⟩

theorem comap {f : γ → α} {permitted : γ → Prop} {z : γ}
    (through : ∀ y, permitted y → valid (f y)) (legible : Legible stop valid chars view (f z)) :
    Legible stop permitted (fun y => chars (f y)) (fun y => view (f y)) z :=
  fun y allowed => legible (f y) (through y allowed)

theorem cons (c : Char) (legible : Legible stop valid chars view x) :
    Legible stop valid (fun y => c :: chars y) view x := by
  intro y allowed rest behind ends stops same
  exact legible y allowed rest behind ends stops (List.cons.inj same).2

theorem closed {closing : Char} (closes : further closing = true)
    (legible : Legible further valid chars view x) :
    Legible stop valid (fun y => chars y ++ [closing]) view x := by
  intro y allowed rest behind _ _ same
  rw [List.append_assoc,List.append_assoc] at same
  obtain ⟨shown,remaining⟩ := legible y allowed _ _ (ends_cons closes) (ends_cons closes) same
  exact ⟨shown,(List.cons.inj remaining).2⟩

/-- One part after the other. A stop after the second part is one after the first as well, and so
is whatever the second part starts with. -/
theorem append (before : Legible stop valid first view x)
    (after : Legible further valid second other x)
    (wider : ∀ c, further c = true → stop c = true)
    (starts : ∀ y, valid y → Ends stop (second y)) (own : valid x) :
    Legible further valid (fun y => first y ++ second y) (fun y => (view y,other y)) x := by
  intro y allowed rest behind ends stops same
  rw [List.append_assoc,List.append_assoc] at same
  obtain ⟨front,back⟩ := before y allowed _ _ ((starts x own).append (ends.mono wider))
    ((starts y allowed).append (stops.mono wider)) same
  obtain ⟨tail,remaining⟩ := after y allowed rest behind ends stops back
  exact ⟨Prod.ext front tail,remaining⟩

/-- A part that may be missing. Its first character is no stop, so one sees whether it is there. -/
theorem optional {absent : α → Bool} {opening : Char} (starts : stop opening = false)
    (none : absent x = true → ∀ y, valid y → absent y = true → view x = view y)
    (some : absent x = false → Legible stop (fun y => valid y ∧ absent y = false) chars view x) :
    Legible stop valid (fun y => if absent y then [] else opening :: chars y) view x := by
  intro y allowed rest behind ends stops same
  cases here : absent x with
  | true =>
    cases there : absent y with
    | true =>
      simp only [here,there,if_true,List.nil_append] at same
      exact ⟨none here y allowed there,same⟩
    | false =>
      simp only [here,there,if_true,Bool.false_eq_true,if_false,List.nil_append] at same
      rw [same] at ends
      exact absurd ends (begins_cons starts).not_ends
  | false =>
    cases there : absent y with
    | true =>
      simp only [here,there,if_true,Bool.false_eq_true,if_false,List.nil_append] at same
      rw [← same] at stops
      exact absurd stops (begins_cons starts).not_ends
    | false =>
      simp only [here,there,Bool.false_eq_true,if_false] at same
      exact some here y ⟨allowed,there⟩ rest behind ends stops (List.cons.inj same).2

section Rows

variable {separator : Char} {xs : List α}

private theorem preceded (separates : stop separator = true)
    (wider : ∀ c, further c = true → stop c = true) (inner : further separator = false)
    (each : ∀ x ∈ xs, Legible stop valid chars view x) :
    Legible further (fun ys => ∀ y ∈ ys, valid y)
      (fun ys => ys.flatMap fun y => separator :: chars y) (List.map view) xs := by
  have follows (ys : List α) {rest : List Char} (ends : Ends further rest) :
      Ends stop (ys.flatMap (fun y => separator :: chars y) ++ rest) := by
    cases ys with
    | nil => exact ends.mono wider
    | cons y ys => exact ends_cons separates
  induction xs with
  | nil =>
    intro ys allowed rest behind ends stops same
    cases ys with
    | nil => exact ⟨rfl,same⟩
    | cons y ys =>
      rw [show rest = _ from same] at ends
      exact absurd ends (begins_cons inner).not_ends
  | cons x xs ih =>
    rw [List.forall_mem_cons] at each
    intro ys allowed rest behind ends stops same
    cases ys with
    | nil =>
      rw [← show _ = behind from same] at stops
      exact absurd stops (begins_cons inner).not_ends
    | cons y ys =>
      rw [List.forall_mem_cons] at allowed
      simp only [List.flatMap_cons,List.cons_append,List.append_assoc,List.cons.injEq,true_and] at same
      obtain ⟨shown,later⟩ := each.1 y allowed.1 _ _ (follows xs ends) (follows ys stops) same
      obtain ⟨others,remaining⟩ := ih each.2 ys allowed.2 rest behind ends stops later
      exact ⟨by rw [List.map_cons,List.map_cons,shown,others],remaining⟩

private theorem cons_intercalate (xs : List α) (nonempty : xs ≠ []) :
    separator :: [separator].intercalate (xs.map chars) =
      xs.flatMap fun x => separator :: chars x := by
  induction xs with
  | nil => exact absurd rfl nonempty
  | cons x xs ih =>
    cases xs with
    | nil => simp
    | cons next xs =>
      rw [List.flatMap_cons,← ih (by simp),List.map_cons,List.map_cons,List.intercalate_cons_cons]
      simp

theorem eq_intercalate {printer : List α → List Char} (nil : printer [] = [])
    (single : ∀ x, printer [x] = chars x)
    (cons : ∀ x next rest, printer (x :: next :: rest) = chars x ++ separator :: printer (next :: rest))
    (xs : List α) : printer xs = [separator].intercalate (xs.map chars) := by
  induction xs with
  | nil => exact nil
  | cons x xs ih =>
    cases xs with
    | nil => rw [single,List.map_singleton,List.intercalate_singleton]
    | cons next rest =>
      rw [cons,ih,List.map_cons,List.map_cons,List.map_cons,List.intercalate_cons_cons,
        List.append_assoc,List.singleton_append]

private theorem begins_intercalate (nonempty : xs ≠ []) (starts : ∀ x ∈ xs, Begins stop (chars x)) :
    Begins stop ([separator].intercalate (xs.map chars)) := by
  obtain ⟨x,rest,rfl⟩ := List.exists_cons_of_ne_nil nonempty
  have first : Begins stop (chars x) := starts x (by simp)
  cases rest with
  | nil => simpa using first
  | cons next rest =>
    rw [List.map_cons,List.map_cons,List.intercalate_cons_cons,List.append_assoc]
    exact first.append

/-- Items in a row with a separator between them. -/
theorem joined (separates : stop separator = true)
    (wider : ∀ c, further c = true → stop c = true) (inner : further separator = false)
    (starts : ∀ y, valid y → Begins stop (chars y)) (own : ∀ x ∈ xs, valid x)
    (each : ∀ x ∈ xs, Legible stop valid chars view x) :
    Legible further (fun ys => ∀ y ∈ ys, valid y)
      (fun ys => [separator].intercalate (ys.map chars)) (List.map view) xs := by
  have seen (ys : List α) (nonempty : ys ≠ []) (allowed : ∀ y ∈ ys, valid y) {rest : List Char}
      (ends : Ends further ([separator].intercalate (ys.map chars) ++ rest)) : False := by
    have begins : Begins stop ([separator].intercalate (ys.map chars)) :=
      begins_intercalate nonempty fun y inside => starts y (allowed y inside)
    exact (begins.mono wider).append.not_ends ends
  intro ys allowed rest behind ends stops same
  by_cases empty : xs = []
  · by_cases void : ys = []
    · subst empty void
      exact ⟨rfl,same⟩
    · subst empty
      rw [show rest = _ from same] at ends
      exact (seen ys void allowed ends).elim
  · by_cases void : ys = []
    · subst void
      rw [← show _ = behind from same] at stops
      exact (seen xs empty own stops).elim
    · -- With a separator in front of both rows each item has one.
      apply preceded separates wider inner each ys allowed rest behind ends stops
      change xs.flatMap _ ++ rest = ys.flatMap _ ++ behind
      rw [← cons_intercalate xs empty,← cons_intercalate ys void]
      exact congrArg (separator :: ·) same

end Rows

end Legible

/-- A way to write things, in which each of them is seen at once and can be read in one way only. -/
structure Script {α β : Type} (stop : Char → Bool) (valid : α → Prop) (chars : α → List Char)
    (view : α → β) : Prop where
  starts : ∀ x, valid x → Begins stop (chars x)
  legible : ∀ x, valid x → Legible stop valid chars view x

namespace Script

variable {α β γ : Type} {stop further : Char → Bool} {valid : α → Prop}
variable {chars : α → List Char} {view : α → β}

theorem comap (script : Script stop valid chars view) (f : γ → α) :
    Script stop (fun z => valid (f z)) (fun z => chars (f z)) (fun z => view (f z)) where
  starts z allowed := script.starts (f z) allowed
  legible z allowed := (script.legible (f z) allowed).comap fun _ permitted => permitted

theorem joined (script : Script stop valid chars view) {separator : Char}
    (separates : stop separator = true) (wider : ∀ c, further c = true → stop c = true)
    (inner : further separator = false) :
    Script further (fun xs => xs ≠ [] ∧ ∀ x ∈ xs, valid x)
      (fun xs => [separator].intercalate (xs.map chars)) (List.map view) where
  starts xs allowed := by
    have begins : Begins stop ([separator].intercalate (xs.map chars)) :=
      Legible.begins_intercalate allowed.1 fun x inside => script.starts x (allowed.2 x inside)
    exact begins.mono wider
  legible xs allowed := by
    have row := Legible.joined separates wider inner script.starts allowed.2
      fun x inside => script.legible x (allowed.2 x inside)
    exact fun ys permitted => row ys permitted.2

end Script

theorem bounds_of_isNameStart {c : Char} (start : isNameStart c = true) :
    65 ≤ c.toNat ∧ c.toNat ≤ 122 := by
  rcases Bool.or_eq_true_iff.mp start with letter | underscore
  · rcases Bool.or_eq_true_iff.mp letter with upper | lower
    · obtain ⟨low,high⟩ := of_decide_eq_true upper
      exact ⟨low,Nat.le_trans (UInt32.le_iff_toNat_le.mp high) (by decide)⟩
    · obtain ⟨low,high⟩ := Bool.and_eq_true_iff.mp lower
      have low := UInt32.le_iff_toNat_le.mp (of_decide_eq_true low)
      exact ⟨Nat.le_trans (by decide) low,of_decide_eq_true high⟩
  · rw [eq_of_beq underscore]
    decide

private theorem escapeQuote_append_inj {c d : Char} {rest other : List Char}
    (same : escapeQuote c ++ rest = escapeQuote d ++ other) : c = d ∧ rest = other := by
  unfold escapeQuote at same
  split at same
  · split at same
    · simpa using same
    next plain =>
      -- A backslash in front belongs to what is escaped.
      simp only [List.cons_append,List.cons.injEq] at same
      exact absurd (Or.inr same.1.symm) plain
  next plain =>
    split at same
    · simp only [List.cons_append,List.cons.injEq] at same
      exact absurd (Or.inr same.1) plain
    · simpa using same

private theorem begins_escapeQuote (c : Char) : Begins (· == '"') (escapeQuote c) := by
  unfold escapeQuote
  split
  · exact begins_cons rfl
  next plain =>
    have other : c ≠ '"' := fun same => plain (Or.inl same)
    exact begins_cons (by simpa using other)

theorem legible_quote (stop : Char → Bool) (cs : List Char) :
    Legible stop (fun _ => True) quote id cs := by
  have inside : Legible (· == '"') (fun _ => True) (List.flatMap escapeQuote) id cs := by
    induction cs with
    | nil =>
      intro ds _ rest other ends _ same
      cases ds with
      | nil => exact ⟨rfl,same⟩
      | cons d ds =>
        rw [List.flatMap_nil,List.nil_append,List.flatMap_cons,List.append_assoc] at same
        rw [same] at ends
        exact absurd ends (begins_escapeQuote d).append.not_ends
    | cons c cs ih =>
      intro ds _ rest other ends stops same
      rw [List.flatMap_cons,List.append_assoc] at same
      cases ds with
      | nil =>
        rw [List.flatMap_nil,List.nil_append] at same
        rw [← same] at stops
        exact absurd stops (begins_escapeQuote c).append.not_ends
      | cons d ds =>
        rw [List.flatMap_cons,List.append_assoc] at same
        obtain ⟨equal,later⟩ := escapeQuote_append_inj same
        obtain ⟨tail,remaining⟩ := ih ds trivial rest other ends stops later
        subst equal
        exact ⟨congrArg (List.cons c) tail,remaining⟩
  exact (inside.closed rfl).cons '"'

end FlatQuery.Text

namespace FlatQuery.Decimal

theorem isDigit_of_mem_ofNat {n : Nat} {c : Char} (inside : c ∈ ofNat n) : c.isDigit = true :=
  Nat.isDigit_of_mem_toDigits (by decide) (by decide) inside

theorem ofNat_injective {m n : Nat} (same : ofNat m = ofNat n) : m = n := by
  calc
    m = Nat.ofDigitChars 10 (ofNat m) 0 := Nat.ofDigitChars_ten_toDigits.symm
    _ = Nat.ofDigitChars 10 (ofNat n) 0 := by rw [same]
    _ = n := Nat.ofDigitChars_ten_toDigits

theorem ofInt_injective {m n : Int} (same : ofInt m = ofInt n) : m = n := by
  have unsigned (a b : Nat) : ofNat a ≠ '-' :: ofNat (b + 1) := by
    intro equal
    have digit := isDigit_of_mem_ofNat (n := a) (c := '-') (by rw [equal]; simp)
    cases digit
  cases m with
  | ofNat a =>
    cases n with
    | ofNat b => exact congrArg Int.ofNat (ofNat_injective same)
    | negSucc b => exact absurd same (unsigned a b)
  | negSucc a =>
    cases n with
    | ofNat b => exact absurd same.symm (unsigned b a)
    | negSucc b =>
      have digits := ofNat_injective (List.cons.inj same).2
      exact congrArg Int.negSucc (Nat.succ.inj digits)

end FlatQuery.Decimal
