import FuzzyInference.Fault
import FuzzyInference.Scalar

/-!
# Degrees of truth

A degree is a number of the unit interval.  Numbers become degrees through a
check; the operations that cannot leave the interval need none, and pin their
result to it, which for them changes nothing.
-/

namespace FuzzyInference

structure Degree (α : Type) [Scalar α] where
  value : α
  nonneg : 0 ≤ value
  le_one : value ≤ 1

namespace Degree

variable {α : Type} [Scalar α]

def zero : Degree α := ⟨0, Scalar.zero_le_zero, Scalar.zero_le_one⟩

def one : Degree α := ⟨1, Scalar.zero_le_one, Scalar.one_le_one⟩

instance : Zero (Degree α) := ⟨zero⟩

instance : One (Degree α) := ⟨one⟩

instance : BEq (Degree α) := ⟨fun a b => a.value == b.value⟩

instance : LT (Degree α) := ⟨fun a b => a.value < b.value⟩

instance : LE (Degree α) := ⟨fun a b => a.value ≤ b.value⟩

instance : DecidableLT (Degree α) := fun a b => inferInstanceAs (Decidable (a.value < b.value))

instance : DecidableLE (Degree α) := fun a b => inferInstanceAs (Decidable (a.value ≤ b.value))

/-- The smaller degree, the first of two equal ones. -/
instance : Min (Degree α) := ⟨fun a b => if b < a then b else a⟩

/-- The greater degree, the first of two equal ones. -/
instance : Max (Degree α) := ⟨fun a b => if a < b then b else a⟩

instance [Numeral α] : Numeral (Degree α) := ⟨fun a => Numeral.text a.value⟩

@[ext] theorem ext {a b : Degree α} (h : a.value = b.value) : a = b := by
  cases a
  cases b
  cases h
  rfl

/-! ## Numbers as degrees -/

def ofScalar (value : α) : Except (Fault α) (Degree α) :=
  if Scalar.isFinite value then
    if h : 0 ≤ value ∧ value ≤ 1 then .ok ⟨value, h.1, h.2⟩
    else .error (.outsideUnit value)
  else .error (.notFinite value)

/-- The degree of a number that may have left the interval by rounding. -/
def ofRounded (value : α) : Except (Fault α) (Degree α) :=
  if Scalar.isFinite value then
    if -Scalar.tolerance ≤ value ∧ value < 0 then .ok 0
    else if 1 < value ∧ value ≤ 1 + Scalar.tolerance then .ok 1
    else ofScalar value
  else .error (.notFinite value)

def ofBool (b : Bool) : Degree α := if b then 1 else 0

/-- The degree nearest to a number, 0 where that is not-a-number. -/
def nearest (value : α) : Degree α :=
  if h : 0 ≤ value ∧ value ≤ 1 then ⟨value, h.1, h.2⟩
  else if 1 < value then 1
  else 0

/-- The number nearest to `value` from `lower` to `upper`, and `lower` where
that is not-a-number. -/
def clamp (value : α) (lower upper : Degree α) : Degree α :=
  if Scalar.isNaN value ∨ value < lower.value then lower
  else if upper.value < value then upper
  else nearest value

theorem value_nearest {value : α} (h : 0 ≤ value ∧ value ≤ 1) : (nearest value).value = value := by
  simp [nearest, h]

/-! ## Arithmetic -/

def isZero (a : Degree α) : Bool := a.value == 0

def isOne (a : Degree α) : Bool := a.value == 1

def complement (a : Degree α) : Degree α := nearest (1 - a.value)

instance : Mul (Degree α) := ⟨fun a b => nearest (a.value * b.value)⟩

def add (a b : Degree α) : Except (Fault α) (Degree α) := ofScalar (a.value + b.value)

def sub (a b : Degree α) : Except (Fault α) (Degree α) := ofScalar (a.value - b.value)

def div (a b : Degree α) : Except (Fault α) (Degree α) := ofScalar (a.value / b.value)

end Degree

end FuzzyInference
