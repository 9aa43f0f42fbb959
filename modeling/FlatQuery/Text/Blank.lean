/-! White space in the sense of the Unicode property of that name, and trimming. -/

namespace FlatQuery.Text

/-- The ranges of code points with the White_Space property, in order. -/
def blankRanges : List (Nat × Nat) :=
  [(0x09, 0x0d), (0x20, 0x20), (0x85, 0x85), (0xa0, 0xa0), (0x1680, 0x1680), (0x2000, 0x200a),
   (0x2028, 0x2029), (0x202f, 0x202f), (0x205f, 0x205f), (0x3000, 0x3000)]

def isBlank (c : Char) : Bool :=
  blankRanges.any fun range => range.1 ≤ c.toNat && c.toNat ≤ range.2

def trim (cs : List Char) : List Char :=
  ((cs.dropWhile isBlank).reverse.dropWhile isBlank).reverse

def utf8Length (cs : List Char) : Nat := cs.foldl (fun total c => total + c.utf8Size) 0

end FlatQuery.Text
