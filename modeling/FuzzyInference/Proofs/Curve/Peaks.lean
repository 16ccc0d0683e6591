import FuzzyInference.Proofs.Curve.Heights
import FuzzyInference.Shape

/-!
# How high a curve is at its points

Where a curve has points it is as high as the highest of them, however steep it
is next to them.  So it has a peak at one of its points and is nowhere higher.
Before its first point and beyond its last it keeps the height of that.  Neither
rounded nor exact numbers need anything but their order for this.
-/

namespace FuzzyInference

open Scalar

variable {α κ : Type} [Scalar α] [LinearOrder κ]

namespace Curve

def first (c : Curve α) : Point α := c.points.head c.ne_nil

theorem first_mem (c : Curve α) : c.first ∈ c.points := List.head_mem c.ne_nil

def last (c : Curve α) : Point α := c.points.getLast c.ne_nil

theorem last_mem (c : Curve α) : c.last ∈ c.points := List.getLast_mem c.ne_nil

theorem corners_ne_nil (c : Curve α) : c.corners ≠ [] := mt List.map_eq_nil_iff.1 c.ne_nil

theorem head_corners (c : Curve α) : c.corners.head c.corners_ne_nil = c.first.corner :=
  List.head_map ..

theorem getLast_corners (c : Curve α) : c.corners.getLast c.corners_ne_nil = c.last.corner :=
  List.getLast_map ..

theorem mem_consecutive_corners {c : Curve α} {p q : Point α} (h : (p, q) ∈ consecutive c.points) :
    (p.corner, q.corner) ∈ consecutive c.corners := by
  rw [corners, consecutive_map]
  exact List.mem_map_of_mem (f := Prod.map Point.corner Point.corner) h

end Curve

namespace Shape

theorem lower_mem (s : Shape α) : s.lower ∈ s.positions := by
  cases s with
  | graph kind curve fits => exact List.mem_map_of_mem (List.head_mem curve.ne_nil)
  | singleton support => exact List.mem_singleton_self _

theorem upper_mem (s : Shape α) : s.upper ∈ s.positions := by
  cases s with
  | graph kind curve fits => exact List.mem_map_of_mem (List.getLast_mem curve.ne_nil)
  | singleton support => exact List.mem_singleton_self _

end Shape

namespace Ranks

variable {nan : α → Prop} {rank : α → κ} (h : Ranks nan rank)

include h

/-! ## Curves -/

section Curves

variable {c : Curve α} {x y : α} {p q : Point α}

theorem not_nan_position (p : Position α) : ¬ nan p.x := h.not_nan_of_isFinite p.finite

theorem pairwise_points (c : Curve α) : c.points.Pairwise fun p q => rank p.x ≤ rank q.x :=
  have : IsTrans (Point α) fun p q => rank p.x ≤ rank q.x := ⟨fun _ _ _ => le_trans⟩
  pairwise_iff_consecutive.2 fun s hs => not_lt.1 fun hlt =>
    c.ascending s hs ((h.lt_iff (h.not_nan_position _) (h.not_nan_position _)).2 hlt)

theorem ordered_corners (c : Curve α) : Polyline.Ordered nan rank c.corners where
  place := List.forall_mem_map.2 fun p _ => h.not_nan_position p.toPosition
  height := List.forall_mem_map.2 fun p _ => h.not_nan_degree p.y
  ascending := List.pairwise_map.2 (h.pairwise_points c)

theorem point_between (hp : p ∈ c.points) :
    rank c.lower ≤ rank p.x ∧ rank p.x ≤ rank c.upper :=
  have : Std.Refl fun p q : Point α => rank p.x ≤ rank q.x := ⟨fun _ => le_rfl⟩
  ⟨(h.pairwise_points c).rel_head hp, (h.pairwise_points c).rel_getLast hp⟩

theorem lowest_le (hp : p ∈ c.points) : c.lowest ≤ p.y :=
  (h.foldl_min_spec 1 _).2 _ (List.mem_cons_of_mem _ (List.mem_map_of_mem hp))

theorem le_highest (hp : p ∈ c.points) : p.y ≤ c.highest :=
  (h.foldl_max_spec 0 _).2 _ (List.mem_cons_of_mem _ (List.mem_map_of_mem hp))

theorem exists_lowest (c : Curve α) : ∃ p ∈ c.points, p.y ≤ c.lowest := by
  have hmem : c.lowest ∈ 1 :: c.points.map Point.y := (h.foldl_min_spec 1 _).1
  rcases List.mem_cons.1 hmem with hone | hmem
  · rw [hone]
    exact ⟨c.first, c.first_mem, c.first.y.le_one⟩
  · obtain ⟨p, hp, heq⟩ := List.mem_map.1 hmem
    rw [← heq]
    exact ⟨p, hp, h.degree_le_iff.2 le_rfl⟩

theorem exists_highest (c : Curve α) : ∃ p ∈ c.points, c.highest ≤ p.y := by
  have hmem : c.highest ∈ 0 :: c.points.map Point.y := (h.foldl_max_spec 0 _).1
  rcases List.mem_cons.1 hmem with hzero | hmem
  · rw [hzero]
    exact ⟨c.first, c.first_mem, c.first.y.nonneg⟩
  · obtain ⟨p, hp, heq⟩ := List.mem_map.1 hmem
    rw [← heq]
    exact ⟨p, hp, h.degree_le_iff.2 le_rfl⟩

theorem lowest_le_highest (c : Curve α) : c.lowest ≤ c.highest :=
  h.degree_le_trans (h.lowest_le c.first_mem) (h.le_highest c.first_mem)

theorem lowest_le_height (c : Curve α) (x : α) : c.lowest ≤ c.membership x :=
  h.le_clamp (h.lowest_le_highest c) _

theorem height_le_highest (c : Curve α) (x : α) : c.membership x ≤ c.highest :=
  h.clamp_le (h.lowest_le_highest c) _

/-! ### Points -/

/-- What is read off the corners is the height of the curve if it is between
the lowest and the highest of them. -/
theorem membership_of_height? (hheight : Polyline.height? x c.corners = some y) (hy : ¬ nan y)
    (hlowest : rank c.lowest.value ≤ rank y) (hhighest : rank y ≤ rank c.highest.value) :
    (c.membership x).value = y := by
  rw [Curve.membership, hheight, Option.getD_some]
  exact h.value_clamp_of_between hy hlowest hhighest

theorem membership_of_height?_point (hp : p ∈ c.points)
    (hheight : Polyline.height? x c.corners = some p.corner.y) : c.membership x = p.y :=
  Degree.ext (h.membership_of_height? hheight (h.not_nan_degree p.y)
    (h.degree_le_iff.1 (h.lowest_le hp)) (h.degree_le_iff.1 (h.le_highest hp)))

theorem membership_of_point (hp : p ∈ c.points) (hx : ¬ nan x) (hpx : rank p.x = rank x) :
    ∃ top ∈ c.points, rank top.x = rank x ∧ c.membership x = top.y ∧
      ∀ q ∈ c.points, rank q.x = rank x → q.y ≤ top.y := by
  have hmem : p.corner ∈ c.corners := List.mem_map_of_mem hp
  obtain ⟨top, htop, htopx, hheight, hle⟩ :=
    (h.ordered_corners c).exists_height?_of_corner h hmem hx hpx
  obtain ⟨t, ht, rfl⟩ := List.mem_map.1 htop
  exact ⟨t, ht, htopx, h.membership_of_height?_point ht hheight, fun q hq hqx =>
    h.degree_le_iff.2 (hle q.corner (List.mem_map_of_mem hq) hqx)⟩

theorem le_membership (hp : p ∈ c.points) (hx : ¬ nan x) (hpx : rank p.x = rank x) :
    p.y ≤ c.membership x := by
  obtain ⟨top, -, -, heq, hle⟩ := h.membership_of_point hp hx hpx
  rw [heq]
  exact hle p hp hpx

/-- Between two neighbours a curve is as high as is calculated, within bounds. -/
theorem membership_of_within (hpq : (p, q) ∈ consecutive c.points) (hx : ¬ nan x)
    (hpx : rank p.x < rank x) (hxq : rank x < rank q.x) : c.membership x = Degree.clamp
      (p.y.value + (x - p.x) * (q.y.value - p.y.value) / (q.x - p.x)) c.lowest c.highest := by
  have hheight := (h.ordered_corners c).height?_of_mem_segment h
    (Curve.mem_consecutive_corners hpq) hx hpx hxq
  rw [Curve.membership, hheight]
  rfl

/-! ### Ends -/

theorem membership_before (hx : ¬ nan x) (hbefore : rank x < rank c.lower) :
    c.membership x = c.first.y := by
  have hfirst := c.head_corners
  have hheight := (h.ordered_corners c).height?_of_lt h c.corners_ne_nil hx (hfirst ▸ hbefore)
  rw [hfirst] at hheight
  exact h.membership_of_height?_point c.first_mem hheight

theorem membership_beyond (hx : ¬ nan x) (hbeyond : rank c.upper < rank x) :
    c.membership x = c.last.y := by
  have hlast := c.getLast_corners
  have hheight := (h.ordered_corners c).height?_of_gt h c.corners_ne_nil hx (hlast ▸ hbeyond)
  rw [hlast] at hheight
  exact h.membership_of_height?_point c.last_mem hheight

/-- Up to its first point a curve is as high as that, unless another is there. -/
theorem membership_of_le_first {rest : List (Point α)} (hpoints : c.points = p :: q :: rest)
    (hx : ¬ nan x) (hle : rank x ≤ rank p.x) (hlt : rank x < rank q.x) :
    c.membership x = p.y := by
  have hfirst : c.first = p := by simp [Curve.first, hpoints]
  rcases hle.lt_or_eq with hbefore | heq
  · rw [← hfirst] at hbefore ⊢
    exact h.membership_before hx hbefore
  · have hp : p ∈ c.points := hfirst ▸ c.first_mem
    obtain ⟨top, htop, htopx, hheight, -⟩ := h.membership_of_point hp hx heq.symm
    rw [hheight]
    have hascending := h.pairwise_points c
    rw [hpoints] at htop hascending
    rcases List.mem_cons.1 htop with rfl | hlater
    · rfl
    · have : Std.Refl fun p q : Point α => rank p.x ≤ rank q.x := ⟨fun _ => le_rfl⟩
      exact absurd (hascending.of_cons.rel_head hlater) (htopx ▸ hlt).not_ge

theorem membership_of_ge_last {before : List (Point α)} (hpoints : c.points = before ++ [p, q])
    (hx : ¬ nan x) (hlt : rank p.x < rank x) (hle : rank q.x ≤ rank x) :
    c.membership x = q.y := by
  have hlast : c.last = q := by simp [Curve.last, hpoints]
  rcases hle.lt_or_eq with hbeyond | heq
  · rw [← hlast] at hbeyond ⊢
    exact h.membership_beyond hx hbeyond
  · have hq : q ∈ c.points := hlast ▸ c.last_mem
    obtain ⟨top, htop, htopx, hheight, -⟩ := h.membership_of_point hq hx heq
    rw [hheight]
    have hascending := h.pairwise_points c
    rw [show c.points = (before ++ [p]) ++ [q] by simp [hpoints]] at htop hascending
    rcases List.mem_append.1 htop with hearlier | hlater
    · have : Std.Refl fun p q : Point α => rank p.x ≤ rank q.x := ⟨fun _ => le_rfl⟩
      have hle := (List.pairwise_append.1 hascending).1.rel_getLast hearlier
      rw [List.getLast_concat] at hle
      exact absurd hle (htopx ▸ hlt).not_ge
    · rw [List.mem_singleton.1 hlater]

end Curves

/-! ## Shapes -/

section Shapes

variable {s : Shape α} {x y : α}

theorem not_nan_of_mem (hx : x ∈ s.positions) : ¬ nan x := by
  cases s with
  | graph kind curve fits =>
      obtain ⟨p, -, rfl⟩ := List.mem_map.1 hx
      exact h.not_nan_position p.toPosition
  | singleton support =>
      rw [List.mem_singleton.1 hx]
      exact h.not_nan_position support

theorem position_between (hx : x ∈ s.positions) :
    rank s.lower ≤ rank x ∧ rank x ≤ rank s.upper := by
  cases s with
  | graph kind c fits =>
      obtain ⟨p, hp, rfl⟩ := List.mem_map.1 hx
      exact h.point_between hp
  | singleton support =>
      rw [List.mem_singleton.1 hx]
      exact ⟨le_rfl, le_rfl⟩

/-- A curve is nowhere beyond its last point higher than at a place that is not
before it. -/
theorem membership_le_of_beyond (hs : s.isSingleton = false) (hx : ¬ nan x) (hy : ¬ nan y)
    (hbeyond : rank s.upper < rank x) (hupper : rank s.upper ≤ rank y) :
    s.membership x ≤ s.membership y := by
  cases s with
  | singleton support => cases hs
  | graph kind c fits =>
      change c.membership x ≤ c.membership y
      rw [h.membership_beyond hx hbeyond]
      rcases hupper.lt_or_eq with hlt | heq
      · rw [h.membership_beyond hy hlt]
        exact h.degree_le_iff.2 le_rfl
      · exact h.le_membership c.last_mem hy heq

theorem lowest_le_membership (s : Shape α) (x : α) : s.lowest ≤ s.membership x := by
  cases s with
  | graph kind c fits => exact h.lowest_le_height c x
  | singleton support => exact (Shape.membership (.singleton support) x).nonneg

theorem membership_le_highest (s : Shape α) (x : α) : s.membership x ≤ s.highest := by
  cases s with
  | graph kind c fits => exact h.height_le_highest c x
  | singleton support => exact (Shape.membership (.singleton support) x).le_one

/-- Everywhere at one of its positions a shape is as high as it ever gets, also
where that is on a vertical step. -/
theorem exists_peak (s : Shape α) :
    ∃ y ∈ s.positions, ∀ x, ¬ nan x → rank y = rank x → s.highest ≤ s.membership x := by
  cases s with
  | graph kind c fits =>
      obtain ⟨p, hp, hhighest⟩ := h.exists_highest c
      refine ⟨p.x, List.mem_map_of_mem hp, fun x hx hpx => ?_⟩
      exact h.degree_le_trans hhighest (h.le_membership hp hx hpx)
  | singleton support =>
      refine ⟨support.x, List.mem_singleton_self _, fun x hx heq => ?_⟩
      have hmembership : Shape.membership (.singleton support) x = 1 := by
        rw [Shape.membership, (h.beq_iff hx (h.not_nan_position support)).2 heq.symm]
        rfl
      rw [hmembership]
      exact h.degree_le_iff.2 le_rfl

end Shapes

end Ranks

end FuzzyInference
