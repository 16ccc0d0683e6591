import FuzzyInference.FuzzySet
import FuzzyInference.Proofs.Binary.Extremes
import FuzzyInference.Proofs.Curve.Exposed
import FuzzyInference.Proofs.Fallible

/-!
# The range of a membership function

A membership function is never below its lowest nor above its highest height,
and as high as that at one of its positions.  A triangle or a trapezoid ranges
over the heights that it is declared with.
-/

namespace FuzzyInference

open Scalar

variable {α κ : Type} [Scalar α] [LinearOrder κ]

/-! ## Declared heights -/

inductive Shape.HasHeights (low high : Degree α) (s : Shape α) : Prop
  | triangle (x₁ x₂ x₃ : α) : ofTriangle x₁ x₂ x₃ low high = .ok s → HasHeights low high s
  | trapezoid (x₁ x₂ x₃ x₄ : α) : ofTrapezoid x₁ x₂ x₃ x₄ low high = .ok s → HasHeights low high s
  | leftEdge (x₁ x₂ : α) : ofLeftEdge x₁ x₂ low high = .ok s → HasHeights low high s
  | rightEdge (x₁ x₂ : α) : ofRightEdge x₁ x₂ low high = .ok s → HasHeights low high s

structure Curve.Spans (c : Curve α) (low high : Degree α) : Prop where
  ordered : ¬ high < low
  heights : ∀ p ∈ c.points, p.y = low ∨ p.y = high
  exists_low : ∃ p ∈ c.points, p.y = low
  exists_high : ∃ p ∈ c.points, p.y = high

theorem Shape.HasHeights.spans {low high : Degree α} {s : Shape α} (h : s.HasHeights low high) :
    ∃ kind c fits, s = .graph kind c fits ∧ c.Spans low high := by
  cases h with
  | triangle x₁ x₂ x₃ h =>
      obtain ⟨hheights, p₁, p₂, p₃, -, c, fits, hpoints, rfl⟩ := ofTriangle_eq_ok_iff.1 h
      exact ⟨_, c, fits, rfl, hheights, by simp [hpoints], by simp [hpoints], by simp [hpoints]⟩
  | trapezoid x₁ x₂ x₃ x₄ h =>
      obtain ⟨hheights, p₁, p₂, p₃, p₄, -, c, fits, hpoints, rfl⟩ := ofTrapezoid_eq_ok_iff.1 h
      exact ⟨_, c, fits, rfl, hheights, by simp [hpoints], by simp [hpoints], by simp [hpoints]⟩
  | leftEdge x₁ x₂ h =>
      obtain ⟨hheights, p₁, p₂, -, c, fits, hpoints, rfl⟩ := ofLeftEdge_eq_ok_iff.1 h
      exact ⟨_, c, fits, rfl, hheights, by simp [hpoints], by simp [hpoints], by simp [hpoints]⟩
  | rightEdge x₁ x₂ h =>
      obtain ⟨hheights, p₁, p₂, -, c, fits, hpoints, rfl⟩ := ofRightEdge_eq_ok_iff.1 h
      exact ⟨_, c, fits, rfl, hheights, by simp [hpoints], by simp [hpoints], by simp [hpoints]⟩

theorem Shape.HasHeights.spans_curve {low high : Degree α} {kind : CurveKind} {c : Curve α}
    {fits : kind.Fits c} (h : (graph kind c fits).HasHeights low high) : c.Spans low high := by
  obtain ⟨_, _, _, heq, hc⟩ := h.spans
  cases heq
  exact hc

namespace Ranks

variable {nan : α → Prop} {rank : α → κ} (h : Ranks nan rank) {low high : Degree α} {s : Shape α}

include h

theorem extremes_of_spans {c : Curve α} (hc : c.Spans low high) :
    (c.lowest == low) = true ∧ (c.highest == high) = true := by
  have hordered : low ≤ high :=
    h.degree_le_iff.2 (not_lt.1 (mt h.degree_lt_iff.2 hc.ordered))
  have hbetween {p : Point α} (hp : p ∈ c.points) :
      rank low.value ≤ rank p.y.value ∧ rank p.y.value ≤ rank high.value := by
    have hle := h.degree_le_iff.1 hordered
    rcases hc.heights p hp with heq | heq
    · rw [heq]
      exact ⟨le_rfl, hle⟩
    · rw [heq]
      exact ⟨hle, le_rfl⟩
  obtain ⟨bottom, hbottom, hlowest⟩ := h.exists_lowest c
  obtain ⟨top, htop, hhighest⟩ := h.exists_highest c
  obtain ⟨p, hp, rfl⟩ := hc.exists_low
  obtain ⟨q, hq, rfl⟩ := hc.exists_high
  constructor
  · exact h.degree_beq_iff.2 (le_antisymm (h.degree_le_iff.1 (h.lowest_le hp))
      ((hbetween hbottom).1.trans (h.degree_le_iff.1 hlowest)))
  · exact h.degree_beq_iff.2 (le_antisymm ((h.degree_le_iff.1 hhighest).trans (hbetween htop).2)
      (h.degree_le_iff.1 (h.le_highest hq)))

theorem extremes_of_hasHeights (hs : s.HasHeights low high) :
    (s.lowest == low) = true ∧ (s.highest == high) = true := by
  obtain ⟨kind, c, fits, rfl, hc⟩ := hs.spans
  exact h.extremes_of_spans hc

/-! ## Peaks -/

theorem exists_membership_eq_highest (s : Shape α) :
    ∃ x ∈ s.positions, (s.membership x == s.highest) = true := by
  obtain ⟨x, hx, hpeak⟩ := h.exists_peak s
  have hle := h.degree_le_iff.1 (hpeak x (h.not_nan_of_mem hx) rfl)
  have hge := h.degree_le_iff.1 (h.membership_le_highest s x)
  exact ⟨x, hx, h.degree_beq_iff.2 (le_antisymm hge hle)⟩

theorem isNormal_iff (t : FuzzySet α) :
    t.isNormal = true ↔ ∃ x, (t.membership x).isOne = true := by
  have hone : ¬ nan (1 : α) := (h.not_nan_of_le one_le_one).1
  have hiff (a : Degree α) : a.isOne = true ↔ rank a.value = rank 1 :=
    h.beq_iff (h.not_nan_degree a) hone
  rw [FuzzySet.isNormal, hiff]
  constructor
  · intro hnormal
    obtain ⟨x, -, heq⟩ := h.exists_membership_eq_highest t.shape
    exact ⟨x, (hiff _).2 ((h.degree_beq_iff.1 heq).trans hnormal)⟩
  · rintro ⟨x, hx⟩
    have hge := h.degree_le_iff.1 (h.membership_le_highest t.shape x)
    have hle := (h.le_iff (h.not_nan_degree _) hone).1 t.shape.highest.le_one
    exact le_antisymm hle (((hiff _).1 hx).symm.trans_le hge)

end Ranks

/-- In double precision, also at infinities and where the argument is not a
number, a membership function stays within its heights, which are in order, and
reaches the highest at one of its positions.  So a set is normal exactly if
something belongs to it fully.  The heights of triangles and trapezoids are
those declared.  In exact arithmetic there is nothing to clamp. -/
theorem Shape.membership_in_range :
    (∀ c : Curve Float, c.lowest ≤ c.highest) ∧
    (∀ s : Shape Float, (∀ x, s.lowest ≤ s.membership x ∧ s.membership x ≤ s.highest) ∧
      ∃ x ∈ s.positions, (s.membership x == s.highest) = true) ∧
    (∀ t : FuzzySet Float, t.isNormal = true ↔ ∃ x, (t.membership x).isOne = true) ∧
    (∀ (low high : Degree Float) (s : Shape Float), s.HasHeights low high →
      (s.lowest == low) = true ∧ (s.highest == high) = true) ∧
    ∀ (c : Curve ℚ) (x : ℚ), Polyline.height? x c.corners = some (c.membership x).value :=
  ⟨Binary.ranks.lowest_le_highest,
    fun s => ⟨fun x => ⟨Binary.ranks.lowest_le_membership s x,
      Binary.ranks.membership_le_highest s x⟩, Binary.ranks.exists_membership_eq_highest s⟩,
    Binary.ranks.isNormal_iff, fun _ _ _ => Binary.ranks.extremes_of_hasHeights,
    Rational.height?_corners⟩

theorem Shape.membership_in_range_of_loweredTriangle :
    let quarter : Degree Float := ⟨0.25, by decide +kernel, by decide +kernel⟩
    let half : Degree Float := ⟨0.5, by decide +kernel, by decide +kernel⟩
    ∃ s, ofTriangle 1 2 4 quarter half = .ok s ∧
      (s.lowest == quarter) = true ∧ (s.highest == half) = true := by
  intro quarter half
  obtain ⟨s, hs⟩ := Option.isSome_iff_exists.1
    (show (ofTriangle 1 2 4 quarter half).toOption.isSome = true by decide +kernel)
  have hs := Fallible.toOption_eq_some.1 hs
  exact ⟨s, hs, membership_in_range.2.2.2.1 quarter half s (.triangle 1 2 4 hs)⟩

end FuzzyInference
