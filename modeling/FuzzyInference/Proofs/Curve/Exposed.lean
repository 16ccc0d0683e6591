import FuzzyInference.Proofs.Curve.Peaks
import FuzzyInference.Proofs.Curve.Refinement
import FuzzyInference.Proofs.Rational.Degree

/-!
# Where the points of a curve can be seen

On the way from one point to the next a curve rises or falls evenly.  At a point
it is as high as the highest point there, so a segment of the curve is straight
up to its ends unless a higher point stands on one of them.  In the standard
shapes that happens to vertical segments only, however many of their points
coincide.
-/

namespace FuzzyInference.Rational

open Scalar Polyline

variable {c : Curve ℚ} {x : ℚ} {p q : Point ℚ}

/-! ## Segments -/

/-- Strictly between two neighbours the curve is on the line from one to the
other, and clamping changes nothing. -/
theorem membership_of_mem_segment (h : (p, q) ∈ consecutive c.points) (hpx : p.x < x)
    (hxq : x < q.x) : (c.membership x).value =
      p.y.value + (x - p.x) * (q.y.value - p.y.value) / (q.x - p.x) := by
  obtain ⟨hp, hq⟩ := mem_of_mem_consecutive h
  have hheight := (ranks.ordered_corners c).height?_of_mem_segment ranks
    (Curve.mem_consecutive_corners h) not_false hpx hxq
  have hwidth : 0 < q.x - p.x := by linarith
  have hplace : p.y.value + (x - p.x) * (q.y.value - p.y.value) / (q.x - p.x) =
      p.y.value + (q.y.value - p.y.value) * ((x - p.x) / (q.x - p.x)) := by ring
  have hbetween := partway_mem_Icc ⟨ranks.lowest_le hp, ranks.le_highest hp⟩
    ⟨ranks.lowest_le hq, ranks.le_highest hq⟩ (div_nonneg (sub_nonneg.2 hpx.le) hwidth.le)
    ((div_le_one hwidth).2 (by linarith))
  rw [← hplace] at hbetween
  exact ranks.membership_of_height? hheight not_false hbetween.1 hbetween.2

/-- Clamping never changes what is read off the corners. -/
theorem height?_corners (c : Curve ℚ) (x : ℚ) :
    height? x c.corners = some (c.membership x).value := by
  have hc := ranks.ordered_corners c
  rcases hc.height?_eq_corner_or_within ranks c.corners_ne_nil (x := x) not_false with
    ⟨corner, hcorner, hheight⟩ | ⟨s, hs, hstart, hstop⟩
  · obtain ⟨p, hp, rfl⟩ := List.mem_map.1 hcorner
    rw [ranks.membership_of_height?_point hp hheight]
    exact hheight
  · rw [hc.height?_of_mem_segment ranks hs not_false hstart hstop]
    rw [Curve.corners, consecutive_map] at hs
    obtain ⟨⟨p, q⟩, hpq, rfl⟩ := List.mem_map.1 hs
    exact congrArg some (membership_of_mem_segment hpq hstart hstop).symm

/-! ## Exposed points -/

theorem membership_of_top (hp : p ∈ c.points)
    (htop : ∀ q ∈ c.points, q.x = p.x → q.y.value ≤ p.y.value) :
    (c.membership p.x).value = p.y.value := by
  obtain ⟨top, hmem, htopx, heq, hall⟩ := ranks.membership_of_point hp not_false rfl
  rw [heq]
  exact le_antisymm (htop top hmem htopx) (hall p hp rfl)

/-- No point overtops an end of a segment that is not vertical. -/
def Exposed (c : Curve ℚ) : Prop :=
  ∀ s ∈ consecutive c.points, s.1.x = s.2.x ∨
    ∀ p ∈ c.points, (p.x = s.1.x → p.y.value ≤ s.1.y.value) ∧
      (p.x = s.2.x → p.y.value ≤ s.2.y.value)

theorem Exposed.straight (h : Exposed c) {s : Corner ℚ × Corner ℚ}
    (hs : s ∈ consecutive c.corners) :
    s.1.x = s.2.x ∨ Straight (fun x => (c.membership x).value) s.1 s.2 := by
  rw [Curve.corners, consecutive_map] at hs
  obtain ⟨⟨p, q⟩, hpq, rfl⟩ := List.mem_map.1 hs
  obtain ⟨hp, hq⟩ := mem_of_mem_consecutive hpq
  rcases h (p, q) hpq with hvertical | hexposed
  · exact .inl hvertical
  · have hle : p.x ≤ q.x := not_lt.1 (c.ascending (p, q) hpq)
    rcases hle.eq_or_lt with heq | hlt
    · exact .inl heq
    · exact .inr ⟨hlt, membership_of_top hp fun r hr => (hexposed r hr).1,
        membership_of_top hq fun r hr => (hexposed r hr).2, fun x => membership_of_mem_segment hpq⟩

/-! ## Declared curves -/

theorem le_of_pairwise (h : c.points.Pairwise fun p q => p.x < q.x) (hp : p ∈ c.points)
    (hq : q ∈ c.points) (hx : q.x = p.x) : q.y.value ≤ p.y.value := by
  have hnodup : (c.points.map fun p => p.x).Nodup := List.pairwise_map.2 (h.imp ne_of_lt)
  rw [List.inj_on_of_nodup_map hnodup hq hp hx]

theorem exposed_of_pairwise (h : c.points.Pairwise fun p q => p.x < q.x) : Exposed c := by
  intro s hs
  obtain ⟨hp, hq⟩ := mem_of_mem_consecutive hs
  exact .inr fun p hmem => ⟨le_of_pairwise h hp hmem, le_of_pairwise h hq hmem⟩

/-- A point of the base stands at the peak of a triangle only below it, and the
two ends of the base stand apart. -/
theorem exposed_of_isTriangle (h : c.IsTriangle) (hwide : c.lower < c.upper) : Exposed c := by
  obtain ⟨left, peak, right, hpoints, hbase, hpeak⟩ := h
  have hbase : left.y.value = right.y.value := congrArg Degree.value hbase
  have hpeak : left.y.value ≤ peak.y.value := not_lt.1 hpeak
  have hwide : left.x < right.x := by simpa [Curve.lower, Curve.upper, hpoints] using hwide
  have hascending := c.ascending
  simp only [Point.Ascending, Exposed, hpoints, consecutive_cons_cons, consecutive_singleton,
    List.forall_mem_cons, List.not_mem_nil, false_implies, implies_true, and_true, not_lt]
    at hascending ⊢
  obtain ⟨hrise, hfall⟩ := hascending
  refine ⟨hrise.eq_or_lt.imp_right fun hlt => ?_, hfall.eq_or_lt.imp_right fun hlt => ?_⟩
  · refine ⟨⟨?_, ?_⟩, ⟨?_, ?_⟩, ⟨?_, ?_⟩⟩ <;> intro hx <;> linarith
  · refine ⟨⟨?_, ?_⟩, ⟨?_, ?_⟩, ⟨?_, ?_⟩⟩ <;> intro hx <;> linarith

/-- The flat top of a trapezoid overtops its base, and the two ends of the base
stand apart.  A shoulder has two points only. -/
theorem exposed_of_isTrapezoid (h : c.IsTrapezoid) (hwide : c.lower < c.upper) : Exposed c := by
  rcases h with ⟨left, rise, fall, right, hpoints, hbase, htop, hheight⟩ | ⟨left, right, hpoints⟩
  · have hbase : left.y.value = right.y.value := congrArg Degree.value hbase
    have htop : rise.y.value = fall.y.value := congrArg Degree.value htop
    have hheight : left.y.value ≤ rise.y.value := not_lt.1 hheight
    have hwide : left.x < right.x := by simpa [Curve.lower, Curve.upper, hpoints] using hwide
    have hascending := c.ascending
    simp only [Point.Ascending, Exposed, hpoints, consecutive_cons_cons, consecutive_singleton,
      List.forall_mem_cons, List.not_mem_nil, false_implies, implies_true, and_true, not_lt]
      at hascending ⊢
    obtain ⟨hrise, hflat, hfall⟩ := hascending
    refine ⟨hrise.eq_or_lt.imp_right fun hlt => ?_, hflat.eq_or_lt.imp_right fun hlt => ?_,
      hfall.eq_or_lt.imp_right fun hlt => ?_⟩
    · refine ⟨⟨?_, ?_⟩, ⟨?_, ?_⟩, ⟨?_, ?_⟩, ⟨?_, ?_⟩⟩ <;> intro hx <;> linarith
    · refine ⟨⟨?_, ?_⟩, ⟨?_, ?_⟩, ⟨?_, ?_⟩, ⟨?_, ?_⟩⟩ <;> intro hx <;> linarith
    · refine ⟨⟨?_, ?_⟩, ⟨?_, ?_⟩, ⟨?_, ?_⟩, ⟨?_, ?_⟩⟩ <;> intro hx <;> linarith
  · apply exposed_of_pairwise
    simpa [hpoints, Curve.lower, Curve.upper] using hwide

end FuzzyInference.Rational
