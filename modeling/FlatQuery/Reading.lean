/-! Reading from the front of a list. A reader hands back a value together with
what is left, and the left part is a suffix of what it was given, so readers
can be chained and repeated without losing or repeating input. -/

namespace FlatQuery

/-- A value read from the front of `input` and the part that was not read. -/
structure Read (σ α : Type) (input : List σ) where
  value : α
  rest : List σ
  suffix : rest <:+ input

namespace Read

variable {σ α β : Type} {input : List σ}

def map (f : α → β) (r : Read σ α input) : Read σ β input :=
  ⟨f r.value, r.rest, r.suffix⟩

def after (r : Read σ α input) (s : Read σ β r.rest) : Read σ β input :=
  ⟨s.value, s.rest, s.suffix.trans r.suffix⟩

def within (r : Read σ α input.tail) : Read σ α input :=
  ⟨r.value, r.rest, r.suffix.trans (List.tail_suffix input)⟩

def behind (front : List σ) (r : Read σ α input) : Read σ α (front ++ input) :=
  ⟨r.value, r.rest, r.suffix.trans (List.suffix_append front input)⟩

def one (value : α) (first : σ) (rest : List σ) : Read σ α (first :: rest).tail :=
  ⟨value, rest, List.suffix_refl rest⟩

def nothing (value : α) (input : List σ) : Read σ α input :=
  ⟨value, input, List.suffix_refl input⟩

def exactly? [DecidableEq σ] (item : σ) : (input : List σ) → Option (Read σ Unit input.tail)
  | [] => none
  | first :: rest => if first = item then some (one () first rest) else none

def run (p : σ → Bool) (input : List σ) : Read σ (List σ) input :=
  ⟨input.takeWhile p, input.dropWhile p, List.dropWhile_suffix p⟩

def taken (r : Read σ α input) : List σ := input.take (input.length - r.rest.length)

theorem taken_append (r : Read σ α input) : r.taken ++ r.rest = input :=
  List.suffix_iff_eq_append.mp r.suffix

theorem length_le (r : Read σ α input) : r.rest.length ≤ input.length := r.suffix.length_le

theorem within_length_le (r : Read σ α input.tail) : r.rest.length ≤ input.length := r.within.length_le

@[simp] theorem map_value (f : α → β) (r : Read σ α input) : (r.map f).value = f r.value := rfl
@[simp] theorem map_rest (f : α → β) (r : Read σ α input) : (r.map f).rest = r.rest := rfl
@[simp] theorem after_value (r : Read σ α input) (s : Read σ β r.rest) : (r.after s).value = s.value := rfl
@[simp] theorem after_rest (r : Read σ α input) (s : Read σ β r.rest) : (r.after s).rest = s.rest := rfl
@[simp] theorem behind_value (front : List σ) (r : Read σ α input) : (r.behind front).value = r.value := rfl
@[simp] theorem behind_rest (front : List σ) (r : Read σ α input) : (r.behind front).rest = r.rest := rfl
@[simp] theorem within_value (r : Read σ α input.tail) : r.within.value = r.value := rfl
@[simp] theorem within_rest (r : Read σ α input.tail) : r.within.rest = r.rest := rfl

end Read

end FlatQuery
