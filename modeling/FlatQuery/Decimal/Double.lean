import FlatQuery.Decimal.Digits

/-! Binary floating-point numbers of 64 bits, as a mantissa and a power of two,
and the rounding of a fraction to the nearest of them. -/

namespace FlatQuery.Decimal

/-- `finite negative m e` stands for `m · 2 ^ e`, with `m < 2 ^ 53` and `-1074 ≤ e`,
where `m` has all 53 bits unless `e = -1074`. Zero has a sign. -/
inductive Double where
  | finite (negative : Bool) (mantissa : Nat) (exponent : Int)
  | infinite (negative : Bool)
  | nan
deriving DecidableEq, Repr

namespace Double

def leastExponent : Int := -1074

def greatestExponent : Int := 971

def isFinite : Double → Bool
  | finite .. => true
  | _ => false

def roundQuotient (num den : Nat) : Nat :=
  let quotient := num / den
  let doubled := 2 * (num % den)
  if den < doubled || (doubled == den && quotient % 2 == 1) then quotient + 1 else quotient

def scaled (num den : Nat) (e : Int) : Nat × Nat :=
  if e < 0 then (num <<< e.natAbs, den) else (num, den <<< e.natAbs)

def exponentOf (num den : Nat) : Int :=
  let guess := max leastExponent ((num.log2 : Int) - den.log2 - 53)
  let (n, d) := scaled num den guess
  if 1 <<< 53 ≤ n / d then guess + 1 else guess

def ofQuotient (negative : Bool) (num den : Nat) : Double :=
  if num = 0 then finite negative 0 leastExponent
  else
    let e := exponentOf num den
    let (n, d) := scaled num den e
    let m := roundQuotient n d
    let (m, e) := if m = 1 <<< 53 then (1 <<< 52, e + 1) else (m, e)
    if greatestExponent < e then infinite negative else finite negative m e

def ofInt (n : Int) : Double := ofQuotient (n < 0) n.natAbs 1

/-- The double nearest to `coefficient · 10 ^ power`. Powers far outside the range of
doubles are not computed. -/
def ofDecimal (negative : Bool) (coefficient : Nat) (power : Int) : Double :=
  let size : Int := (ofNat coefficient).length + power
  if coefficient = 0 || size < -330 then finite negative 0 leastExponent
  else if 310 < size then infinite negative
  else if power < 0 then ofQuotient negative coefficient (Nat.pow 10 power.natAbs)
  else ofQuotient negative (coefficient * Nat.pow 10 power.natAbs) 1

end Double

end FlatQuery.Decimal
