import FuzzyInference.FuzzySet
import FuzzyInference.Proofs.Curve.Exact
import FuzzyInference.Proofs.Curve.Peaks
import FuzzyInference.Proofs.Rational.Degree

/-!
# Where the center of a curve lies

In exact arithmetic the center of gravity of what lies below a curve is between
the ends of the curve, and so is the number that stands for a set.
-/

namespace FuzzyInference.Rational

open Scalar Polyline

variable {low high x : ℚ} {p q : Corner ℚ} {corners : List (Corner ℚ)}

/-! ## One segment -/

theorem le_segmentMoment (hlow : low ≤ p.x) (hx : p.x ≤ q.x) (hp : 0 ≤ p.y) (hq : 0 ≤ q.y) :
    low * segmentArea p q ≤ segmentMoment p q := by
  have hbase : 0 ≤ q.x - p.x := sub_nonneg.2 hx
  have hstart : 0 ≤ p.y * (2 * p.x + q.x - 3 * low) := mul_nonneg hp (by linarith)
  have hend : 0 ≤ q.y * (p.x + 2 * q.x - 3 * low) := mul_nonneg hq (by linarith)
  have hdiff : segmentMoment p q - low * segmentArea p q =
      (q.x - p.x) * (p.y * (2 * p.x + q.x - 3 * low) + q.y * (p.x + 2 * q.x - 3 * low)) / 6 := by
    rw [segmentMoment, segmentArea, two_eq]
    ring
  rw [← sub_nonneg, hdiff]
  positivity

theorem segmentMoment_le (hhigh : q.x ≤ high) (hx : p.x ≤ q.x) (hp : 0 ≤ p.y) (hq : 0 ≤ q.y) :
    segmentMoment p q ≤ high * segmentArea p q := by
  have hbase : 0 ≤ q.x - p.x := sub_nonneg.2 hx
  have hstart : 0 ≤ p.y * (3 * high - (2 * p.x + q.x)) := mul_nonneg hp (by linarith)
  have hend : 0 ≤ q.y * (3 * high - (p.x + 2 * q.x)) := mul_nonneg hq (by linarith)
  have hdiff : high * segmentArea p q - segmentMoment p q =
      (q.x - p.x) * (p.y * (3 * high - (2 * p.x + q.x)) +
        q.y * (3 * high - (p.x + 2 * q.x))) / 6 := by
    rw [segmentMoment, segmentArea, two_eq]
    ring
  rw [← sub_nonneg, hdiff]
  positivity

/-! ## Whole curves -/

/-- Corners that ascend from `low` to `high`, none of them below the axis. -/
structure Confined (low high : ℚ) (corners : List (Corner ℚ)) : Prop where
  ascending : corners.Pairwise fun p q => p.x ≤ q.x
  within : ∀ p ∈ corners, p.x ∈ Set.Icc low high
  nonneg : ∀ p ∈ corners, 0 ≤ p.y

namespace Confined

theorem le_of_mem_consecutive (h : Confined low high corners) {s : Corner ℚ × Corner ℚ}
    (hs : s ∈ consecutive corners) : s.1.x ≤ s.2.x :=
  have : IsTrans (Corner ℚ) fun p q => p.x ≤ q.x := ⟨fun _ _ _ => le_trans⟩
  pairwise_iff_consecutive.1 h.ascending s hs

theorem centerOfGravity?_mem (h : Confined low high corners)
    (hx : centerOfGravity? corners = some x) : x ∈ Set.Icc low high := by
  rw [centerOfGravity?, lamina_eq] at hx
  split_ifs at hx with hpos
  cases hx
  apply div_mem_Icc hpos
  · rw [← List.sum_map_mul_left]
    apply List.sum_le_sum
    intro s hs
    obtain ⟨hp, hq⟩ := mem_of_mem_consecutive hs
    exact le_segmentMoment (h.within _ hp).1 (h.le_of_mem_consecutive hs) (h.nonneg _ hp)
      (h.nonneg _ hq)
  · rw [← List.sum_map_mul_left]
    apply List.sum_le_sum
    intro s hs
    obtain ⟨hp, hq⟩ := mem_of_mem_consecutive hs
    exact segmentMoment_le (h.within _ hq).2 (h.le_of_mem_consecutive hs) (h.nonneg _ hp)
      (h.nonneg _ hq)

end Confined

/-! ## Curves and shapes -/

section Sets

variable (c : Curve ℚ) (s : Shape ℚ)

theorem pairwise_points : c.points.Pairwise fun p q => p.x ≤ q.x := ranks.pairwise_points c

theorem mem_points {p : Point ℚ} (hp : p ∈ c.points) : p.x ∈ Set.Icc c.lower c.upper :=
  ranks.point_between hp

theorem confined_corners : Confined c.lower c.upper c.corners where
  ascending := List.pairwise_map.2 (pairwise_points c)
  within := List.forall_mem_map.2 fun _ hp => mem_points c hp
  nonneg := List.forall_mem_map.2 fun p _ => p.y.nonneg

theorem exists_highest : ∃ p ∈ c.points, p.y = c.highest := by
  obtain ⟨p, hp, hle⟩ := ranks.exists_highest c
  exact ⟨p, hp, Degree.ext (le_antisymm (ranks.le_highest hp) hle)⟩

theorem centroid_mem : c.centroid ∈ Set.Icc c.lower c.upper := by
  unfold Curve.centroid
  cases hcenter : centerOfGravity? c.corners with
  | some x => exact (confined_corners c).centerOfGravity?_mem hcenter
  | none =>
      obtain ⟨p, hp, hhighest⟩ := exists_highest c
      have hmem : p ∈ c.points.filter fun p => p.y == c.highest :=
        List.mem_filter.2 ⟨hp, beq_iff_eq.2 hhighest⟩
      rw [Option.getD_none, mean, sum_eq]
      apply mean_mem_Icc
      · exact List.ne_nil_of_mem (List.mem_map_of_mem hmem)
      · rw [List.forall_mem_map]
        exact fun q hq => mem_points c (List.mem_of_mem_filter hq)

theorem mem_positions (hx : x ∈ s.positions) : x ∈ Set.Icc s.lower s.upper :=
  ranks.position_between hx

theorem shape_centroid_mem : s.centroid ∈ Set.Icc s.lower s.upper := by
  cases s with
  | graph kind curve fits => exact centroid_mem curve
  | singleton support => exact ⟨le_rfl, le_rfl⟩

end Sets

end FuzzyInference.Rational
