/-!
# White space

The characters with the property `White_Space`.
-/

namespace FuzzyInference.Text

/-- The first and last code of each stretch of white space. -/
def blankRanges : List (Nat × Nat) :=
  [(0x0009, 0x000D), (0x0020, 0x0020), (0x0085, 0x0085), (0x00A0, 0x00A0),
   (0x1680, 0x1680), (0x2000, 0x200A), (0x2028, 0x2029), (0x202F, 0x202F),
   (0x205F, 0x205F), (0x3000, 0x3000)]

def isBlankCode (code : Nat) : Bool :=
  blankRanges.any fun r => r.1 ≤ code && code ≤ r.2

def isBlank (c : Char) : Bool := isBlankCode c.toNat

def trimBlanks (cs : List Char) : List Char :=
  ((cs.dropWhile isBlank).reverse.dropWhile isBlank).reverse

end FuzzyInference.Text
