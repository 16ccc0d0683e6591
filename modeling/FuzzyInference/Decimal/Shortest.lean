/-!
# Shortest decimals of binary numbers

A binary number stands for every real that rounds to it.  The decimal chosen
for it lies on the coarsest decimal grid with a point among those reals, and is
the point of that grid nearest to the number.  On a coarser grid there are
fewer digits, so no shorter decimal reads back as the same number.
-/

namespace FuzzyInference

/-- The number `digits * 10 ^ exponent`. -/
structure Decimal where
  digits : Nat
  exponent : Int
deriving DecidableEq, Repr

/-- The positive number `mantissa * 2 ^ exponent` of a floating-point format.
Just above a power of two the next number down is only half as far away as the
next number up. -/
structure BinaryNumber where
  mantissa : Nat
  exponent : Int
  closeBelow : Bool
deriving DecidableEq, Repr

/-- The interval of reals that round to a binary number, measured on the grid
of the multiples of some power of ten: all four are to be divided by the
spacing of the grid. -/
structure Window where
  center : Nat
  below : Nat
  above : Nat
  spacing : Nat

namespace BinaryNumber

/-- The interval around `b` on the grid of the multiples of `10 ^ k`.  Lengths
are counted in quarters of a unit in the last binary place. -/
def window (b : BinaryNumber) (k : Int) : Window :=
  let scale := Nat.pow 2 b.exponent.toNat * Nat.pow 10 (-k).toNat
  { center := 4 * b.mantissa * scale
    below := (if b.closeBelow then 1 else 2) * scale
    above := 2 * scale
    spacing := 4 * Nat.pow 2 (-b.exponent).toNat * Nat.pow 10 k.toNat }

end BinaryNumber

/-- The grid point of a window nearest to its center, if the window has one.
Half way between two points the upper one is taken.  The ends of a window
belong to it when `closed`. -/
def Window.nearest? (w : Window) (closed : Bool) : Option Nat :=
  let lower := w.center / w.spacing
  let down := w.center - lower * w.spacing
  let up := (lower + 1) * w.spacing - w.center
  let downFits := down < w.below || (closed && down == w.below)
  let upFits := up < w.above || (closed && up == w.above)
  if upFits && (!downFits || up ≤ down) then some (lower + 1)
  else if downFits then some lower
  else none

namespace BinaryNumber

/-- The first hit on the grids from `10 ^ (finest + steps)` down to
`10 ^ finest`, on the last of which the number itself lies. -/
def firstHit (b : BinaryNumber) (finest : Int) : Nat → Decimal
  | 0 =>
      let w := b.window finest
      ⟨w.center / w.spacing, finest⟩
  | steps + 1 =>
      let k := finest + (steps + 1 : Nat)
      match (b.window k).nearest? (b.mantissa % 2 == 0) with
      | some digits => ⟨digits, k⟩
      | none => firstHit b finest steps

/-- A number with `n` digits before the point is below `10 ^ n`, and a number
with a binary exponent below zero is a multiple of ten to that exponent. -/
def shortest (b : BinaryNumber) : Decimal :=
  let whole := (b.mantissa <<< b.exponent.toNat) >>> (-b.exponent).toNat
  let top : Nat := if whole = 0 then 0 else (Nat.toDigits 10 whole).length
  let finest := min b.exponent 0
  b.firstHit finest (top + finest.natAbs)

end BinaryNumber

/-- Positional notation: never an exponent, and no point where nothing follows
it. -/
def Decimal.positional (d : Decimal) : String :=
  let digits := Nat.toDigits 10 d.digits
  let zeros (n : Nat) := List.replicate n '0'
  let places := (-d.exponent).toNat
  String.ofList <|
    if places = 0 then digits ++ zeros d.exponent.toNat
    else if digits.length ≤ places then
      '0' :: '.' :: zeros (places - digits.length) ++ digits
    else
      digits.take (digits.length - places) ++ '.' :: digits.drop (digits.length - places)

end FuzzyInference
