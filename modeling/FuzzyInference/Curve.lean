import FuzzyInference.Curve.Polyline
import FuzzyInference.Degree

/-!
# Curves

The graph of a piecewise-linear membership function: points with a position on
the axis and a height that is a degree, in ascending order of position.  Points
may share a position, which makes a vertical step.
-/

namespace FuzzyInference

/-- A finite number that is not below zero. -/
structure Position (α : Type) [Scalar α] where
  x : α
  finite : Scalar.isFinite x = true
  nonneg : ¬ x < 0

structure Point (α : Type) [Scalar α] extends Position α where
  y : Degree α

variable {α : Type} [Scalar α]

def Position.ofScalar (x : α) : Except (Fault α) (Position α) :=
  if hfinite : Scalar.isFinite x = true then
    if hneg : x < 0 then .error (.negativePosition x)
    else .ok ⟨x, hfinite, hneg⟩
  else .error (.notFinite x)

theorem Position.ofScalar_bind_eq_ok_iff {β : Type} {x : α}
    {f : Position α → Except (Fault α) β} {b : β} :
    (Position.ofScalar x >>= f) = .ok b ↔ ∃ p : Position α, p.x = x ∧ f p = .ok b := by
  constructor
  · intro h
    unfold Position.ofScalar at h
    split at h
    · split at h
      · cases h
      · exact ⟨_, rfl, h⟩
    · cases h
  · rintro ⟨p, rfl, h⟩
    rw [Position.ofScalar, dif_pos p.finite, dif_neg p.nonneg]
    exact h

namespace Point

def ofDegree (x : α) (y : Degree α) : Except (Fault α) (Point α) :=
  (Position.ofScalar x).map fun position => ⟨position, y⟩

/-- The point with two coordinates.  The height is checked first. -/
def ofCoordinates (x y : α) : Except (Fault α) (Point α) := do
  Point.ofDegree x (← Degree.ofScalar y)

def corner (p : Point α) : Corner α := ⟨p.x, p.y.value⟩

/-- No point of the list stands to the left of the one before it. -/
def Ascending (points : List (Point α)) : Prop :=
  ∀ s ∈ consecutive points, ¬ s.2.x < s.1.x

/-- The evidence that points ascend, or the first two that do not. -/
def checkAscending (points : List (Point α)) : Except (Fault α) (PLift (Ascending points)) :=
  match h : (consecutive points).find? fun s => s.2.x < s.1.x with
  | some (before, after) => .error (.unordered before.x after.x)
  | none => .ok ⟨fun s hs => by simpa using List.find?_eq_none.1 h s hs⟩

theorem checkAscending_bind_eq_ok_iff {β : Type} {points : List (Point α)}
    {f : PLift (Ascending points) → Except (Fault α) β} {b : β} :
    (checkAscending points >>= f) = .ok b ↔ ∃ hasc : Ascending points, f ⟨hasc⟩ = .ok b := by
  constructor
  · intro h
    cases hcheck : checkAscending points with
    | error e =>
        rw [hcheck] at h
        cases h
    | ok evidence =>
        rw [hcheck] at h
        exact ⟨evidence.down, h⟩
  · rintro ⟨hasc, h⟩
    cases hcheck : checkAscending points with
    | ok evidence => exact h
    | error e =>
        unfold checkAscending at hcheck
        split at hcheck
        · next before after hfind =>
            have hlt := List.find?_some hfind
            exact absurd (of_decide_eq_true hlt) (hasc _ (List.mem_of_find?_eq_some hfind))
        · cases hcheck

end Point

structure Curve (α : Type) [Scalar α] where
  points : List (Point α)
  ne_nil : points ≠ []
  ascending : Point.Ascending points

namespace Curve

def ofPoints (points : List (Point α)) : Except (Fault α) (Curve α) :=
  if hne : points ≠ [] then
    (Point.checkAscending points).map fun ⟨hasc⟩ => ⟨points, hne, hasc⟩
  else .error .noPoints

def corners (c : Curve α) : List (Corner α) := c.points.map Point.corner

def lower (c : Curve α) : α := (c.points.head c.ne_nil).x

def upper (c : Curve α) : α := (c.points.getLast c.ne_nil).x

def lowest (c : Curve α) : Degree α := (c.points.map Point.y).foldl min 1

def highest (c : Curve α) : Degree α := (c.points.map Point.y).foldl max 0

def membership (c : Curve α) (x : α) : Degree α :=
  Degree.clamp ((Polyline.height? x c.corners).getD c.lowest.value) c.lowest c.highest

/-- The heights of the points never fall, or never rise. -/
def isMonotonic (c : Curve α) : Bool :=
  (consecutive c.points).all (fun s => s.1.y ≤ s.2.y) ||
    (consecutive c.points).all (fun s => s.2.y ≤ s.1.y)

/-- The center of what lies below the curve, and the mean position of its
highest points where nothing does. -/
def centroid (c : Curve α) : α :=
  (Polyline.centerOfGravity? c.corners).getD <|
    Scalar.mean ((c.points.filter fun p => p.y == c.highest).map fun p => p.x)

end Curve

end FuzzyInference
