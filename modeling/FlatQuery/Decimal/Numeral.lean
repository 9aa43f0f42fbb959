import FlatQuery.Decimal.Double

/-! Decimal numbers as they are written: an optional minus sign, a whole part without
leading zeros, and optionally a fraction and an exponent. -/

namespace FlatQuery.Decimal

inductive Exponent where
  | unsigned (digits : List Char)
  | signed (negative : Bool) (digits : List Char)
deriving DecidableEq

structure Numeral where
  negative : Bool
  whole : List Char
  fraction : List Char
  exponent : Option Exponent
deriving DecidableEq

namespace Exponent

def value : Exponent → Int
  | unsigned digits => Decimal.value digits
  | signed negative digits => if negative then -(Decimal.value digits : Int) else Decimal.value digits

def read? : (cs : List Char) → Option (Read Char Exponent cs.tail)
  | [] => none
  | c :: cs =>
    if c = '+' ∨ c = '-' then (digits? cs).map fun r => (r.map (signed (c == '-'))).within
    else (digits? (c :: cs)).map (·.map unsigned)

end Exponent

namespace Numeral

def readFraction (cs : List Char) : Read Char (List Char) cs :=
  match cs with
  | '.' :: rest => match digits? rest with
    | some r => r.within.within
    | none => .nothing [] _
  | _ => .nothing [] _

def readExponent (cs : List Char) : Read Char (Option Exponent) cs :=
  match cs with
  | c :: rest => match if c = 'e' ∨ c = 'E' then Exponent.read? rest else none with
    | some r => (r.map some).within.within
    | none => .nothing none _
  | [] => .nothing none _

def whole? : (cs : List Char) → Option (Read Char (List Char) cs.tail)
  | [] => none
  | c :: cs => if c = '0' then some (.one ['0'] c cs) else digits? (c :: cs)

def unsigned? (negative : Bool) (cs : List Char) : Option (Read Char Numeral cs.tail) :=
  (whole? cs).map fun w =>
    let f := readFraction w.rest
    let e := readExponent f.rest
    w.after (f.after (e.map fun exponent => ⟨negative, w.value, f.value, exponent⟩))

def read? : (cs : List Char) → Option (Read Char Numeral cs.tail)
  | [] => none
  | c :: cs => if c = '-' then (unsigned? true cs).map (·.within) else unsigned? false (c :: cs)

def ofChars? (cs : List Char) : Option Numeral :=
  (read? cs).bind fun r => if r.rest.isEmpty then some r.value else none

def isWhole (n : Numeral) : Bool := n.fraction.isEmpty && n.exponent.isNone

def toInt (n : Numeral) : Int :=
  if n.negative then -(Decimal.value n.whole : Int) else Decimal.value n.whole

def toDouble (n : Numeral) : Double :=
  .ofDecimal n.negative (Decimal.value (n.whole ++ n.fraction))
    ((n.exponent.elim 0 Exponent.value) - n.fraction.length)

end Numeral

namespace Double

/-- The double nearest to a written number; infinities and the missing number have names. -/
def ofChars? (cs : List Char) : Option Double :=
  if cs = ['N', 'a', 'N'] then some nan
  else if cs = ['i', 'n', 'f'] then some (infinite false)
  else if cs = ['-', 'i', 'n', 'f'] then some (infinite true)
  else (Numeral.ofChars? cs).map Numeral.toDouble

end Double

end FlatQuery.Decimal
