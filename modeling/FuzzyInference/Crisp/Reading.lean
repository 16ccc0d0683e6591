import FuzzyInference.Crisp.Aggregate

/-!
# Reading a curve

The numbers that can be read off a merged curve: where its weight is centered,
what halves it, and where it is highest.
-/

namespace FuzzyInference

variable {α : Type} [Scalar α]

open Scalar

/-- The mean of the numbers weighted by the weights beside them, if those have
a positive sum. -/
def weightedMean? (weighted : List (α × α)) : Option α :=
  let moment := weighted.foldl (fun total p => total + p.1 * p.2) 0
  let weight := weighted.foldl (fun total p => total + p.2) 0
  if 0 < weight then some (moment / weight) else none

namespace Polyline

def highestPositions (curve : List (Corner α)) : List α :=
  match greatest? (curve.map Corner.y) with
  | some highest => (curve.filter fun p => p.y == highest).map Corner.x
  | none => []

def mean? (xs : List α) : Option α :=
  if xs = [] then none else some (xs.foldl (· + ·) 0 / ofNat xs.length)

/-- The first position up to which the heights add up to `target`, where those
passed add up to `reached`. -/
def firstReaching? (target reached : α) : List (Corner α) → Option α
  | [] => none
  | p :: rest =>
      let total := reached + p.y
      if target ≤ total then some p.x else firstReaching? target total rest

/-- The place in the first segment up to which the areas add up to `target`,
where those passed add up to `reached`. -/
def split? (target reached : α) : List (Corner α × Corner α) → Option α
  | [] => none
  | (p, q) :: rest =>
      let area := segmentArea p q
      let total := reached + area
      if target ≤ total then height? target [⟨total - area, p.x⟩, ⟨total, q.x⟩]
      else split? target total rest

def discreteBisector? (curve : List (Corner α)) : Option α :=
  firstReaching? (sum (curve.map Corner.y) / two) 0 curve

/-- The position that has half of the area on either side.  Without an area it
is the mean of the highest positions. -/
def continuousBisector? (curve : List (Corner α)) : Option α :=
  let half := sum (segmentAreas curve) / two
  if half ≤ 0 then mean? (highestPositions curve)
  else (split? half 0 (consecutive curve)).or (curve.getLast?.map Corner.x)

/-- The center of gravity of a merged curve, or of its heights where those
stand alone. -/
def centroid? (domain : Domain) (curve : List (Corner α)) : Option α :=
  let heights := weightedMean? (curve.map fun p => (p.x, p.y))
  match domain with
  | .discrete => heights
  | .continuous => (centerOfGravity? curve).or heights

end Polyline

end FuzzyInference
