import FlatQuery.Document.Token
import FlatQuery.Location

/-! The lexemes of a text: its tokens with their places, up to its end or to the first
thing that is no token. -/

namespace FlatQuery.Document

structure Lexeme where
  token : Token
  location : Location

/-- The lexemes of a text. If the text is not `complete`, what stands at `finish` is no token. -/
structure Lexemes where
  list : List Lexeme
  complete : Bool
  finish : Location

namespace Lexemes

def ignore? (place : Location) : Char → Option Location
  | '\ufeff' => some place
  | '\r' => some place
  | '\t' => some (place.right 8)
  | '\n' => some place.nextLine
  | ' ' => some (place.right 1)
  | ',' => some (place.right 1)
  | _ => none

def comment? : (cs : List Char) → Option (Read Char Unit cs)
  | [] => none
  | c :: cs =>
    if c = '\n' ∨ c = '\r' then some ((Read.nothing () cs).behind [c])
    else (comment? cs).map fun r => r.behind [c]

def bracketLimit : Nat := 50

def openAfter? (opened : Nat) : Token → Option Nat
  | .mark m =>
    if m.opens then if opened < bracketLimit then some (opened + 1) else none
    else if m.closes then some (opened - 1)
    else some opened
  | _ => some opened

def scan (place : Location) (opened : Nat) (cs : List Char) : Lexemes :=
  match cs with
  | [] => ⟨[], true, place⟩
  | c :: cs =>
    match ignore? place c with
    | some next => scan next opened cs
    | none =>
      if c = '#' then
        match comment? cs with
        | none => ⟨[], true, place⟩
        | some r => scan place.nextLine opened r.rest
      else
        match Token.read? (c :: cs) with
        | none => ⟨[], false, place⟩
        | some r =>
          match openAfter? opened r.value with
          | none => ⟨[], false, place⟩
          | some opened =>
            let more := scan (place.after r.within.taken) opened r.rest
            { more with list := ⟨r.value, place⟩ :: more.list }
termination_by cs.length
decreasing_by
  · simp
  · have := r.length_le
    simp; omega
  · have : r.rest.length ≤ cs.length := r.length_le
    simp; omega

def ofText (text : String) : Lexemes := scan .start 0 text.toList

end Lexemes

end FlatQuery.Document
