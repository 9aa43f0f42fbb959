import FlatQuery.Decimal.Digits
import FlatQuery.Location

/-! The report of a text that is no document. It names a place, and the place can be read
back from it, whatever details follow. -/

namespace FlatQuery.Report

def marker : List Char := "Parse error at ".toList

def placeChars (location : Location) : List Char :=
  Decimal.ofNat location.line ++ ':' :: Decimal.ofNat location.column

def message (location : Location) (details : String) : List Char :=
  "query parse error: ".toList ++ marker ++ placeChars location ++ details.toList

def afterMarker? : List Char → Option (List Char)
  | [] => none
  | c :: cs => if marker.isPrefixOf (c :: cs) then some ((c :: cs).drop marker.length) else afterMarker? cs

def number? (digits : List Char) : Option Nat :=
  if !digits.isEmpty && digits.all Char.isDigit && Decimal.fitsUnsigned (Decimal.value digits) then
    some (Decimal.value digits)
  else none

/-- The place after the first marker: all the digits and colons there are, cut at the first colon. -/
def location? (message : List Char) : Option Location := do
  let rest ← afterMarker? message
  let run := rest.takeWhile fun c => c.isDigit || c == ':'
  match run.dropWhile (· != ':') with
  | [] => none
  | _ :: column => return ⟨← number? (run.takeWhile (· != ':')), ← number? column⟩

end FlatQuery.Report
