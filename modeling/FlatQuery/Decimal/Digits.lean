import FlatQuery.Reading

/-! Decimal digits: the value of a run of digits and the digits of a number. -/

namespace FlatQuery.Decimal

def value (digits : List Char) : Nat :=
  digits.foldl (fun total digit => 10 * total + (digit.toNat - '0'.toNat)) 0

def digits? : (cs : List Char) → Option (Read Char (List Char) cs.tail)
  | [] => none
  | c :: cs => if c.isDigit then some ((Read.run Char.isDigit cs).map (c :: ·)) else none

def ofNat (n : Nat) : List Char := Nat.toDigits 10 n

def ofInt : Int → List Char
  | .ofNat n => ofNat n
  | .negSucc n => '-' :: ofNat (n + 1)

def fitsSigned (n : Int) : Bool := -0x8000000000000000 ≤ n && n < 0x8000000000000000

def fitsUnsigned (n : Nat) : Bool := n < 0x10000000000000000

end FlatQuery.Decimal
