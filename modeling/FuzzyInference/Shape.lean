import FuzzyInference.Curve

/-!
# Shapes

The membership functions a fuzzy set may have: the graph of a curve, which may
be declared as a triangle or a trapezoid, or the single support of a singleton.
-/

namespace FuzzyInference

variable {α : Type} [Scalar α]

inductive CurveKind
  | polyline
  | triangle
  | trapezoid
deriving DecidableEq, Repr

/-- Three points, the outer two of one height and the peak no lower. -/
def Curve.IsTriangle (c : Curve α) : Prop :=
  ∃ left peak right : Point α,
    c.points = [left, peak, right] ∧ left.y = right.y ∧ ¬ peak.y < left.y

/-- Four points, the outer two of one height and the inner two of another that
is no lower, or the two points of a shoulder. -/
def Curve.IsTrapezoid (c : Curve α) : Prop :=
  (∃ left rise fall right : Point α,
    c.points = [left, rise, fall, right] ∧
      left.y = right.y ∧ rise.y = fall.y ∧ ¬ rise.y < left.y) ∨
  ∃ left right : Point α, c.points = [left, right]

def CurveKind.Fits : CurveKind → Curve α → Prop
  | polyline, _ => True
  | triangle, c => c.IsTriangle
  | trapezoid, c => c.IsTrapezoid

inductive Shape (α : Type) [Scalar α]
  | graph (kind : CurveKind) (curve : Curve α) (fits : kind.Fits curve)
  | singleton (support : Position α)

namespace Shape

/-! ## Construction -/

private def checkHeights (low high : Degree α) :
    Except (Fault α) (PLift (¬ high < low)) :=
  if h : high < low then .error (.reversedHeights low.value high.value) else .ok ⟨h⟩

private theorem checkHeights_bind_eq_ok_iff {β : Type} {low high : Degree α}
    {f : PLift (¬ high < low) → Except (Fault α) β} {b : β} :
    (checkHeights low high >>= f) = .ok b ↔ ∃ hheights : ¬ high < low, f ⟨hheights⟩ = .ok b := by
  constructor
  · intro h
    cases hcheck : checkHeights low high with
    | error e =>
        rw [hcheck] at h
        cases h
    | ok evidence =>
        rw [hcheck] at h
        exact ⟨evidence.down, h⟩
  · rintro ⟨hheights, h⟩
    rw [checkHeights, dif_neg hheights]
    exact h

def ofCoordinates (coordinates : List (α × α)) : Except (Fault α) (Shape α) := do
  let points ← coordinates.mapM fun xy => Point.ofCoordinates xy.1 xy.2
  return graph .polyline (← Curve.ofPoints points) trivial

/-- The triangle from `low` at the outer positions to `high` at the middle
one. -/
def ofTriangle (x₁ x₂ x₃ : α) (low high : Degree α) : Except (Fault α) (Shape α) := do
  let ⟨hheights⟩ ← checkHeights low high
  let p₁ ← Position.ofScalar x₁
  let p₂ ← Position.ofScalar x₂
  let p₃ ← Position.ofScalar x₃
  let ⟨hasc⟩ ← Point.checkAscending [⟨p₁, low⟩, ⟨p₂, high⟩, ⟨p₃, low⟩]
  return graph .triangle ⟨_, List.cons_ne_nil _ _, hasc⟩ ⟨_, _, _, rfl, rfl, hheights⟩

def ofTrapezoid (x₁ x₂ x₃ x₄ : α) (low high : Degree α) : Except (Fault α) (Shape α) := do
  let ⟨hheights⟩ ← checkHeights low high
  let p₁ ← Position.ofScalar x₁
  let p₂ ← Position.ofScalar x₂
  let p₃ ← Position.ofScalar x₃
  let p₄ ← Position.ofScalar x₄
  let ⟨hasc⟩ ← Point.checkAscending [⟨p₁, low⟩, ⟨p₂, high⟩, ⟨p₃, high⟩, ⟨p₄, low⟩]
  return graph .trapezoid ⟨_, List.cons_ne_nil _ _, hasc⟩
    (.inl ⟨_, _, _, _, rfl, rfl, rfl, hheights⟩)

private def ofShoulder (x₁ x₂ : α) (y₁ y₂ : Degree α) : Except (Fault α) (Shape α) := do
  let p₁ ← Position.ofScalar x₁
  let p₂ ← Position.ofScalar x₂
  let ⟨hasc⟩ ← Point.checkAscending [⟨p₁, y₁⟩, ⟨p₂, y₂⟩]
  return graph .trapezoid ⟨_, List.cons_ne_nil _ _, hasc⟩ (.inr ⟨_, _, rfl⟩)

/-- The shoulder that falls from `high` to `low`. -/
def ofLeftEdge (x₁ x₂ : α) (low high : Degree α) : Except (Fault α) (Shape α) := do
  let _ ← checkHeights low high
  ofShoulder x₁ x₂ high low

/-- The shoulder that rises from `low` to `high`. -/
def ofRightEdge (x₁ x₂ : α) (low high : Degree α) : Except (Fault α) (Shape α) := do
  let _ ← checkHeights low high
  ofShoulder x₁ x₂ low high

def ofSupport (x : α) : Except (Fault α) (Shape α) := singleton <$> Position.ofScalar x

/-! ## Declared points -/

/-- The shape is declared as the graph of a curve through the points. -/
def IsGraph (shape : Shape α) (kind : CurveKind) (points : List (Point α)) : Prop :=
  ∃ curve fits, curve.points = points ∧ shape = graph kind curve fits

section Declared

variable {x₁ x₂ x₃ x₄ : α} {low high : Degree α} {shape : Shape α}

theorem ofTriangle_eq_ok_iff : ofTriangle x₁ x₂ x₃ low high = .ok shape ↔
    ¬ high < low ∧ ∃ p₁ p₂ p₃ : Position α, (p₁.x = x₁ ∧ p₂.x = x₂ ∧ p₃.x = x₃) ∧
      shape.IsGraph .triangle [⟨p₁, low⟩, ⟨p₂, high⟩, ⟨p₃, low⟩] := by
  simp only [ofTriangle, checkHeights_bind_eq_ok_iff, Position.ofScalar_bind_eq_ok_iff,
    Point.checkAscending_bind_eq_ok_iff, pure, Except.pure, Except.ok.injEq]
  constructor
  · rintro ⟨hheights, p₁, h₁, p₂, h₂, p₃, h₃, hasc, rfl⟩
    exact ⟨hheights, p₁, p₂, p₃, ⟨h₁, h₂, h₃⟩, _, _, rfl, rfl⟩
  · rintro ⟨hheights, p₁, p₂, p₃, ⟨h₁, h₂, h₃⟩, ⟨points, hne, hasc⟩, fits, rfl, rfl⟩
    exact ⟨hheights, p₁, h₁, p₂, h₂, p₃, h₃, hasc, rfl⟩

theorem ofTrapezoid_eq_ok_iff : ofTrapezoid x₁ x₂ x₃ x₄ low high = .ok shape ↔
    ¬ high < low ∧ ∃ p₁ p₂ p₃ p₄ : Position α,
      (p₁.x = x₁ ∧ p₂.x = x₂ ∧ p₃.x = x₃ ∧ p₄.x = x₄) ∧
        shape.IsGraph .trapezoid [⟨p₁, low⟩, ⟨p₂, high⟩, ⟨p₃, high⟩, ⟨p₄, low⟩] := by
  simp only [ofTrapezoid, checkHeights_bind_eq_ok_iff, Position.ofScalar_bind_eq_ok_iff,
    Point.checkAscending_bind_eq_ok_iff, pure, Except.pure, Except.ok.injEq]
  constructor
  · rintro ⟨hheights, p₁, h₁, p₂, h₂, p₃, h₃, p₄, h₄, hasc, rfl⟩
    exact ⟨hheights, p₁, p₂, p₃, p₄, ⟨h₁, h₂, h₃, h₄⟩, _, _, rfl, rfl⟩
  · rintro ⟨hheights, p₁, p₂, p₃, p₄, ⟨h₁, h₂, h₃, h₄⟩, ⟨points, hne, hasc⟩, fits, rfl, rfl⟩
    exact ⟨hheights, p₁, h₁, p₂, h₂, p₃, h₃, p₄, h₄, hasc, rfl⟩

private theorem ofShoulder_eq_ok_iff {y₁ y₂ : Degree α} : ofShoulder x₁ x₂ y₁ y₂ = .ok shape ↔
    ∃ p₁ p₂ : Position α, (p₁.x = x₁ ∧ p₂.x = x₂) ∧
      shape.IsGraph .trapezoid [⟨p₁, y₁⟩, ⟨p₂, y₂⟩] := by
  simp only [ofShoulder, Position.ofScalar_bind_eq_ok_iff, Point.checkAscending_bind_eq_ok_iff,
    pure, Except.pure, Except.ok.injEq]
  constructor
  · rintro ⟨p₁, h₁, p₂, h₂, hasc, rfl⟩
    exact ⟨p₁, p₂, ⟨h₁, h₂⟩, _, _, rfl, rfl⟩
  · rintro ⟨p₁, p₂, ⟨h₁, h₂⟩, ⟨points, hne, hasc⟩, fits, rfl, rfl⟩
    exact ⟨p₁, h₁, p₂, h₂, hasc, rfl⟩

theorem ofLeftEdge_eq_ok_iff : ofLeftEdge x₁ x₂ low high = .ok shape ↔
    ¬ high < low ∧ ∃ p₁ p₂ : Position α, (p₁.x = x₁ ∧ p₂.x = x₂) ∧
      shape.IsGraph .trapezoid [⟨p₁, high⟩, ⟨p₂, low⟩] := by
  rw [ofLeftEdge, checkHeights_bind_eq_ok_iff, exists_prop, ofShoulder_eq_ok_iff]

theorem ofRightEdge_eq_ok_iff : ofRightEdge x₁ x₂ low high = .ok shape ↔
    ¬ high < low ∧ ∃ p₁ p₂ : Position α, (p₁.x = x₁ ∧ p₂.x = x₂) ∧
      shape.IsGraph .trapezoid [⟨p₁, low⟩, ⟨p₂, high⟩] := by
  rw [ofRightEdge, checkHeights_bind_eq_ok_iff, exists_prop, ofShoulder_eq_ok_iff]

end Declared

/-! ## Values -/

def isSingleton : Shape α → Bool
  | graph _ _ _ => false
  | singleton _ => true

def membership (shape : Shape α) (x : α) : Degree α :=
  match shape with
  | graph _ curve _ => curve.membership x
  | singleton support => Degree.ofBool (x == support.x)

def lower : Shape α → α
  | graph _ curve _ => curve.lower
  | singleton support => support.x

def upper : Shape α → α
  | graph _ curve _ => curve.upper
  | singleton support => support.x

def lowest : Shape α → Degree α
  | graph _ curve _ => curve.lowest
  | singleton _ => 0

def highest : Shape α → Degree α
  | graph _ curve _ => curve.highest
  | singleton _ => 1

def isMonotonic : Shape α → Bool
  | graph _ curve _ => curve.isMonotonic
  | singleton _ => true

def centroid : Shape α → α
  | graph _ curve _ => curve.centroid
  | singleton support => support.x

/-- The positions at which the shape may change direction. -/
def positions : Shape α → List α
  | graph _ curve _ => curve.points.map fun p => p.x
  | singleton support => [support.x]

/-! ## Equality -/

instance : BEq (Point α) := ⟨fun p q => p.x == q.x && p.y == q.y⟩

instance : BEq (Shape α) where
  beq
    | graph kind a _, graph kind' b _ => kind == kind' && a.points == b.points
    | singleton a, singleton b => a.x == b.x
    | _, _ => false

end Shape

end FuzzyInference
