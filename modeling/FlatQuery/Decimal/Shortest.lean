import FlatQuery.Decimal.Double

/-! The text of a double: the fewest significant digits that read back as the same
double, the nearest of those, written without an exponent. -/

namespace FlatQuery.Decimal

namespace Double

/-- The reals that round to a double, as numerators over one denominator: the double itself lies at
`middle`, the ends are `low` and `high`, which belong to them if the interval is `closed`. -/
structure Interval where
  low : Nat
  middle : Nat
  high : Nat
  denominator : Nat
  closed : Bool

def interval (mantissa : Nat) (exponent : Int) : Interval :=
  -- the gap below a power of two is half the gap above it
  let below := if mantissa = 1 <<< 52 ∧ leastExponent < exponent then 1 else 2
  let e := exponent - 2
  let unit := if e < 0 then 1 else 1 <<< e.natAbs
  { low := (4 * mantissa - below) * unit
    middle := 4 * mantissa * unit
    high := (4 * mantissa + 2) * unit
    denominator := if e < 0 then 1 <<< e.natAbs else 1
    closed := mantissa % 2 == 0 }

def magnitude (num den : Nat) : Int :=
  if den ≤ num then (ofNat (num / den)).length
  else 1 - ((ofNat ((den - 1) / num)).length : Int)

structure Candidate where
  coefficient : Nat
  power : Int

namespace Candidate

def scale (c : Candidate) : Nat := if c.power < 0 then Nat.pow 10 c.power.natAbs else 1

def numerator (c : Candidate) (i : Interval) : Nat :=
  (if c.power < 0 then c.coefficient else c.coefficient * Nat.pow 10 c.power.natAbs) * i.denominator

def inside (c : Candidate) (i : Interval) : Bool :=
  let n := c.numerator i
  if i.closed then i.low * c.scale ≤ n && n ≤ i.high * c.scale
  else i.low * c.scale < n && n < i.high * c.scale

def distance (c : Candidate) (i : Interval) : Nat :=
  (c.numerator i - i.middle * c.scale) + (i.middle * c.scale - c.numerator i)

end Candidate

/-- The two neighbours of the double among the decimals with `count` digits: the one that
lies inside the interval, the nearer one if both do, the upper one if they are equally near. -/
def candidate? (i : Interval) (count : Nat) : Option Candidate :=
  let power := magnitude i.middle i.denominator - count
  let coefficient :=
    if power < 0 then i.middle * Nat.pow 10 power.natAbs / i.denominator
    else i.middle / (i.denominator * Nat.pow 10 power.natAbs)
  let lower : Candidate := ⟨coefficient, power⟩
  let upper : Candidate := ⟨coefficient + 1, power⟩
  match lower.inside i, upper.inside i with
  | true, true => if lower.distance i < upper.distance i then some lower else some upper
  | true, false => some lower
  | false, true => some upper
  | false, false => none

def shortest (mantissa : Nat) (exponent : Int) : Candidate :=
  let i := interval mantissa exponent
  ((List.range 17).findSome? fun n => candidate? i (n + 1)).getD ⟨0, 0⟩

def positional (digits : List Char) (point : Int) : List Char :=
  if point ≤ 0 then ['0', '.'] ++ List.replicate point.natAbs '0' ++ digits
  else if digits.length ≤ point.natAbs then
    digits ++ List.replicate (point.natAbs - digits.length) '0'
  else digits.take point.natAbs ++ ['.'] ++ digits.drop point.natAbs

def Candidate.chars (c : Candidate) : List Char :=
  let digits := ofNat c.coefficient
  positional (digits.reverse.dropWhile (· == '0')).reverse (digits.length + c.power)

def sign (negative : Bool) : List Char := if negative then ['-'] else []

def chars : Double → List Char
  | nan => ['N', 'a', 'N']
  | infinite negative => sign negative ++ ['i', 'n', 'f']
  | finite negative mantissa exponent =>
    sign negative ++ if mantissa = 0 then ['0'] else (shortest mantissa exponent).chars

def text (x : Double) : String := String.ofList x.chars

end Double

end FlatQuery.Decimal
