import FuzzyInference.Scalar

/-!
# Polylines

A list of corners stands for the curve that joins each corner to the next.
Beyond its ends the curve keeps the height of the nearest corner, and where it
is vertical the greatest of the heights counts.
-/

namespace FuzzyInference

def consecutive {β : Type} (l : List β) : List (β × β) := l.zip l.tail

structure Corner (α : Type) where
  x : α
  y : α
deriving Repr

namespace Polyline

variable {α : Type} [Scalar α]

open Scalar

def heightBetween (x : α) (p q : Corner α) : α :=
  if x == p.x && x == q.x then larger p.y q.y
  else if x == p.x then p.y
  else if x == q.x then q.y
  else p.y + (x - p.x) * (q.y - p.y) / (q.x - p.x)

/-- The heights at `x` of the segments that hold it: of those that start no
later than any that starts beyond `x`, the ones that do not end before it. -/
def heightsAt (x : α) (corners : List (Corner α)) : List α :=
  ((consecutive corners).takeWhile fun s => ¬ x < s.1.x)
    |>.filter (fun s => ¬ s.2.x < x)
    |>.map fun s => heightBetween x s.1 s.2

/-- The height at `x` of the curve through corners that ascend by `x`.  No
corners make no curve. -/
def height? (x : α) : List (Corner α) → Option α
  | [] => none
  | first :: rest =>
      let last := rest.getLastD first
      if x < first.x then some first.y
      else if last.x < x then some last.y
      else some ((greatest? (heightsAt x (first :: rest))).getD first.y)

def segmentArea (p q : Corner α) : α := (p.y + q.y) * (q.x - p.x) / two

def segmentAreas (corners : List (Corner α)) : List α :=
  (consecutive corners).map fun s => segmentArea s.1 s.2

/-- An area with its moment about the origin. -/
structure Lamina (α : Type) where
  area : α
  moment : α

/-- A lamina with the part below one more segment: a rectangle as high as the
lower end, and on it a triangle whose center lies towards the higher end. -/
def addSegment (total : Lamina α) (p q : Corner α) : Lamina α :=
  let base := q.x - p.x
  let rectangle := smaller p.y q.y * base
  let rectangleCenter := p.x + base / two
  let triangle := if q.y == p.y then 0 else base * magnitude (q.y - p.y) / two
  let triangleCenter :=
    if q.y == p.y then 0
    else if p.y < q.y then p.x + two / three * base
    else p.x + 1 / three * base
  { area := total.area + rectangle + triangle
    moment := total.moment + rectangle * rectangleCenter + triangle * triangleCenter }

def lamina (corners : List (Corner α)) : Lamina α :=
  (consecutive corners).foldl (fun total s => addSegment total s.1 s.2) ⟨0, 0⟩

/-- The center of gravity of what lies below a curve, if that has an area. -/
def centerOfGravity? (corners : List (Corner α)) : Option α :=
  let total := lamina corners
  if 0 < total.area then some (total.moment / total.area) else none

def sampled (places heights : List α) : List (Corner α) := places.zipWith Corner.mk heights

end Polyline

/-- Evenly spaced numbers from `lower` to `upper`, both included where there is
more than one. -/
def evenlySpaced {α : Type} [Scalar α] (lower upper : α) (count : Nat) : List α :=
  let step := if 1 < count then (upper - lower) / Scalar.ofNat (count - 1) else 0
  (List.range count).map fun i => lower + step * Scalar.ofNat i

end FuzzyInference
