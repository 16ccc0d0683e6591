import FuzzyInference.Rule

/-!
# Aggregates

What several rules conclude on one output variable, merged into one curve: each
set is cut off at the strength it is concluded with, and the greatest of the
heights counts.  The curve is known at every position that defines a set, and
at evenly spaced positions from the least to the greatest of them unless every
set is a singleton.
-/

namespace FuzzyInference

variable {α : Type} [Scalar α]

open Scalar

def sampleCount : Nat := 1001

/-- The degree of `x` in the set as far as it is concluded. -/
def Activation.clipped (a : Activation α) (x : α) : Degree α := min a.strength (a.set.membership x)

/-- The kind of sets that a curve is merged from. -/
inductive Domain
  | discrete
  | continuous
deriving DecidableEq, Repr

namespace Aggregate

/-- The positions that are spread over the range of the sets. -/
def spread (activations : List (Activation α)) : List α :=
  match least? (activations.map fun a => a.set.lower),
      greatest? (activations.map fun a => a.set.upper) with
  | some lower, some upper => evenlySpaced lower upper sampleCount
  | _, _ => []

/-- The positions at which the merged curve is known, in ascending order. -/
def positions (domain : Domain) (activations : List (Activation α)) : List α :=
  let defining := activations.flatMap fun a => a.set.shape.positions
  sortedDistinct <|
    match domain with
    | .discrete => defining
    | .continuous => defining ++ spread activations

def height (activations : List (Activation α)) (x : α) : α :=
  (activations.map fun a => (a.clipped x).value).foldl larger 0

def curve (domain : Domain) (activations : List (Activation α)) : List (Corner α) :=
  (positions domain activations).map fun x => ⟨x, height activations x⟩

end Aggregate

end FuzzyInference
