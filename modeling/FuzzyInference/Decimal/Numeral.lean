import FuzzyInference.Decimal.Shortest

/-!
# Numerals

How numbers are written in texts: the shortest decimal that reads back as the
number, in positional notation.
-/

namespace FuzzyInference

class Numeral (α : Type) where
  text : α → String

/-- The fields of a double-precision number: sign, biased exponent, fraction. -/
structure BitFields where
  negative : Bool
  biased : Nat
  fraction : Nat

def BitFields.ofFloat (x : Float) : BitFields :=
  let bits := x.toBits.toNat
  { negative := bits >>> 63 == 1
    biased := (bits >>> 52) % (1 <<< 11)
    fraction := bits % (1 <<< 52) }

/-- The magnitude that the fields stand for.  A biased exponent of zero marks
the numbers without a leading one, which are spaced like those of exponent
one. -/
def BitFields.magnitude (f : BitFields) : BinaryNumber :=
  { mantissa := if f.biased = 0 then f.fraction else (1 <<< 52) + f.fraction
    exponent := (max f.biased 1 : Nat) - 1075
    closeBelow := f.fraction == 0 && 1 < f.biased }

/-- A number's magnitude in digits, after a minus sign if it has one.  Zero
keeps its sign, not-a-number has none. -/
def BitFields.text (f : BitFields) : String :=
  let sign := if f.negative then "-" else ""
  if f.biased = 2047 then
    if f.fraction = 0 then sign ++ "inf" else "NaN"
  else if f.biased = 0 && f.fraction = 0 then sign ++ "0"
  else sign ++ f.magnitude.shortest.positional

instance : Numeral Float where
  text x := (BitFields.ofFloat x).text

end FuzzyInference
