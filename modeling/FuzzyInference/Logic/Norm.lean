import FuzzyInference.Degree

/-!
# Norms

T-norms read AND and t-conorms read OR between two degrees.  At the same place
of the two lists stand the dual ones.  A norm whose formula can leave the unit
interval by rounding alone is brought back to it.
-/

namespace FuzzyInference

inductive TNorm
  | minimum
  | product
  | lukasiewicz
  | drastic
  | einstein
  | hamacher
  | nilpotent
deriving DecidableEq, Repr

inductive TConorm
  | maximum
  | probabilistic
  | bounded
  | drastic
  | einstein
  | hamacher
  | nilpotent
deriving DecidableEq, Repr

/-! ## Names -/

/-- The form in which the name of an operator is looked up: without the white
space around it, with small ASCII letters, and with one kind of separator. -/
def operatorKey (raw : String) : String :=
  String.ofList <| (Text.trimBlanks raw.toList).map fun c =>
    if c = '-' ∨ c = ' ' then '_' else c.toLower

namespace TNorm

def all : List TNorm :=
  [minimum, product, lukasiewicz, drastic, einstein, hamacher, nilpotent]

def name : TNorm → String
  | minimum => "minimum"
  | product => "algebraic_product"
  | lukasiewicz => "lukasiewicz"
  | drastic => "drastic_product"
  | einstein => "einstein_product"
  | hamacher => "hamacher_product"
  | nilpotent => "nilpotent_minimum"

def aliases : TNorm → List String
  | minimum => ["min", "and"]
  | product => ["prod", "product"]
  | lukasiewicz => ["bounded_difference", "bounded_prod"]
  | drastic => ["drastic", "drastic_prod"]
  | einstein => ["einstein"]
  | hamacher => ["hamacher"]
  | nilpotent => ["nilpotent"]

def ofName {α : Type} (raw : String) : Except (Fault α) TNorm :=
  let key := operatorKey raw
  match all.find? fun norm => key = norm.name ∨ key ∈ norm.aliases with
  | some norm => .ok norm
  | none => .error (.unknownOperator raw)

end TNorm

namespace TConorm

def all : List TConorm :=
  [maximum, probabilistic, bounded, drastic, einstein, hamacher, nilpotent]

def name : TConorm → String
  | maximum => "maximum"
  | probabilistic => "probabilistic_sum"
  | bounded => "bounded_sum"
  | drastic => "drastic_sum"
  | einstein => "einstein_sum"
  | hamacher => "hamacher_sum"
  | nilpotent => "nilpotent_maximum"

def aliases : TConorm → List String
  | maximum => ["max", "or"]
  | probabilistic => ["prob_or", "probor"]
  | bounded => ["lukasiewicz"]
  | drastic => ["drastic"]
  | einstein => ["einstein"]
  | hamacher => ["hamacher"]
  | nilpotent => ["nilpotent"]

def ofName {α : Type} (raw : String) : Except (Fault α) TConorm :=
  let key := operatorKey raw
  match all.find? fun conorm => key = conorm.name ∨ key ∈ conorm.aliases with
  | some conorm => .ok conorm
  | none => .error (.unknownOperator raw)

end TConorm

/-! ## Values -/

variable {α : Type} [Scalar α]

/-- The sum of two degrees less their product, written so that rounding takes
it neither below the greater of them nor above 1. -/
def probabilisticSum (u v : α) : α := if v ≤ u then u + v * (1 - u) else v + u * (1 - v)

/-- A quotient of a norm, `limit` where the denominator has come down to 0. -/
def guardedQuotient (numerator denominator limit : α) : α :=
  if denominator ≤ 0 then limit else numerator / denominator

open Scalar in
def TNorm.evaluate (norm : TNorm) (a b : Degree α) : Except (Fault α) (Degree α) :=
  let u := a.value
  let v := b.value
  match norm with
  | minimum => .ok (min a b)
  | product => .ok (a * b)
  | lukasiewicz => Degree.ofRounded (larger (u - (1 - v)) 0)
  | drastic => .ok (if (max a b).isOne then min a b else 0)
  | einstein => Degree.ofRounded (guardedQuotient (u * v) (two - probabilisticSum u v) 0)
  | hamacher => Degree.ofRounded (guardedQuotient (u * v) (probabilisticSum u v) 0)
  | nilpotent => .ok (if 1 < u + v then min a b else 0)

open Scalar in
def TConorm.evaluate (conorm : TConorm) (a b : Degree α) : Except (Fault α) (Degree α) :=
  let u := a.value
  let v := b.value
  match conorm with
  | maximum => .ok (max a b)
  | probabilistic => Degree.ofRounded (probabilisticSum u v)
  | bounded => Degree.ofRounded (smaller (u + v) 1)
  | drastic => .ok (if (min a b).isZero then max a b else 1)
  | einstein => Degree.ofRounded ((u + v) / (1 + u * v))
  | hamacher =>
      Degree.ofRounded (smaller (guardedQuotient (u + v - two * u * v) (1 - u * v) 1) 1)
  | nilpotent => .ok (if u + v < 1 then max a b else 1)

/-- The degree of a conjunction of numbers that have yet to be checked. -/
def TNorm.apply (norm : TNorm) (a b : α) : Except (Fault α) (Degree α) := do
  norm.evaluate (← Degree.ofScalar a) (← Degree.ofScalar b)

def TConorm.apply (conorm : TConorm) (a b : α) : Except (Fault α) (Degree α) := do
  conorm.evaluate (← Degree.ofScalar a) (← Degree.ofScalar b)

end FuzzyInference
