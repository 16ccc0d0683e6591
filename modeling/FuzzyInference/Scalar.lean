/-!
# Numbers of a fuzzy system

Every definition of the library is generic in its numbers.  The same text is
run on binary floating-point numbers and read as exact rational arithmetic, so
a law of the latter and a bound on the former speak of one program.

The class holds operations and the three comparisons that make `0` and `1` the
ends of an interval.  No other law is assumed, because rounded arithmetic has
few.
-/

namespace FuzzyInference

/-- Numbers that can be calculated with, compared and told apart from the
special values of a floating-point format. -/
class Scalar (α : Type) where
  zero : Zero α
  one : One α
  neg : Neg α
  add : Add α
  sub : Sub α
  mul : Mul α
  div : Div α
  lt : LT α
  le : LE α
  beq : BEq α
  decidableLT : DecidableLT α
  decidableLE : DecidableLE α
  /-- The number nearest to a natural number. -/
  ofNat : Nat → α
  /-- Neither infinite nor not-a-number. -/
  isFinite : α → Bool
  /-- Written with a minus sign.  This tells the two zeros of a floating-point
  format apart, which `==` does not. -/
  isNegative : α → Bool
  /-- The largest distance from the unit interval that counts as rounding. -/
  tolerance : α
  zero_le_zero : (0 : α) ≤ 0
  zero_le_one : (0 : α) ≤ 1
  one_le_one : (1 : α) ≤ 1

namespace Scalar

variable {α : Type} [Scalar α]

/-! ## Operators

They give way to the operators that a type has of its own. -/

instance (priority := low) : Zero α := zero

instance (priority := low) : One α := one

instance (priority := low) : Neg α := neg

instance (priority := low) : Add α := add

instance (priority := low) : Sub α := sub

instance (priority := low) : Mul α := mul

instance (priority := low) : Div α := div

instance (priority := low) : LT α := lt

instance (priority := low) : LE α := le

instance (priority := low) : BEq α := beq

instance (priority := low) : DecidableLT α := decidableLT

instance (priority := low) : DecidableLE α := decidableLE

/-! ## Derived operations -/

def two : α := 1 + 1

def three : α := two + 1

/-- Not-a-number is the only value that differs from itself. -/
def isNaN (x : α) : Bool := !(x == x)

def magnitude (x : α) : α := if x < 0 then -x else x

/-- The greater of two numbers, the other one where one is not-a-number. -/
def larger (x y : α) : α := if x < y ∨ isNaN x then y else x

def smaller (x y : α) : α := if y < x ∨ isNaN x then y else x

def greatest? : List α → Option α
  | [] => none
  | x :: xs => some (xs.foldl larger x)

def least? : List α → Option α
  | [] => none
  | x :: xs => some (xs.foldl smaller x)

theorem exists_greatest? {xs : List α} (h : xs ≠ []) : ∃ x, greatest? xs = some x := by
  cases xs with
  | nil => exact absurd rfl h
  | cons x xs => exact ⟨_, rfl⟩

theorem exists_least? {xs : List α} (h : xs ≠ []) : ∃ x, least? xs = some x := by
  cases xs with
  | nil => exact absurd rfl h
  | cons x xs => exact ⟨_, rfl⟩

/-- The sum from left to right.  Negative zero is where it starts, because
adding that changes no number, not even a zero. -/
def sum (xs : List α) : α := xs.foldl (· + ·) (-0)

def mean (xs : List α) : α := sum xs / ofNat xs.length

/-- The order of numbers by value, with a negative zero before the other. -/
def sortsBefore (x y : α) : Bool :=
  x < y || (x == y && (isNegative x || !isNegative y))

/-- One number of each run of neighbours that compare equal, the first. -/
def collapseRuns : List α → List α
  | [] => []
  | x :: xs => go x xs
where
  go (x : α) : List α → List α
    | [] => [x]
    | y :: ys => if y == x then go x ys else x :: go y ys

def sortedDistinct (xs : List α) : List α := collapseRuns (xs.mergeSort sortsBefore)

end Scalar

end FuzzyInference
