import FuzzyInference.Proofs.Curve.Congruence
import FuzzyInference.Proofs.Curve.Hull
import FuzzyInference.Proofs.Fallible

/-!
# Curves in other units

A change of units moves every position by one increasing affine map and leaves
the heights alone.  In exact arithmetic a curve that is measured in other units
is as high at the new place as it was at the old one, and its center moves with
the points.

Interpolation takes the positions to heights, and the search for what halves a
curve takes areas to positions.  So the law of interpolation is stated for a map
of either axis.
-/

namespace FuzzyInference

open Scalar

/-- The map `x ↦ scale * x + shift`, which keeps the order. -/
structure Rescaling where
  scale : ℚ
  shift : ℚ
  scale_pos : 0 < scale

namespace Rescaling

def apply (u : Rescaling) (x : ℚ) : ℚ := u.scale * x + u.shift

instance : CoeFun Rescaling fun _ => ℚ → ℚ := ⟨apply⟩

variable (u v : Rescaling) {x y : ℚ} {xs : List ℚ}

def id : Rescaling := ⟨1, 0, one_pos⟩

/-- Differences are changed by the scale alone. -/
def linear : Rescaling := ⟨u.scale, 0, u.scale_pos⟩

theorem id_apply (x : ℚ) : id x = x := by
  simp [id, apply]

theorem linear_apply (x : ℚ) : u.linear x = u.scale * x := add_zero _

theorem lt_iff : u x < u y ↔ x < y := by
  rw [apply, apply, add_lt_add_iff_right, mul_lt_mul_iff_right₀ u.scale_pos]

theorem le_iff : u x ≤ u y ↔ x ≤ y := by
  rw [← not_lt, u.lt_iff, not_lt]

theorem injective : Function.Injective u := fun _ _ h =>
  le_antisymm (u.le_iff.1 h.le) (u.le_iff.1 h.ge)

theorem beq_eq (x y : ℚ) : (u x == u y) = (x == y) := by
  rw [Bool.eq_iff_iff, beq_iff_eq, beq_iff_eq, u.injective.eq_iff]

theorem sub_eq (x y : ℚ) : u x - u y = u.scale * (x - y) := by
  rw [apply, apply]
  ring

theorem larger_eq (x y : ℚ) : larger (u x) (u y) = u (larger x y) := by
  rw [Rational.larger_eq, Rational.larger_eq]
  exact (Monotone.map_max fun _ _ h => u.le_iff.2 h).symm

theorem smaller_eq (x y : ℚ) : smaller (u x) (u y) = u (smaller x y) := by
  rw [Rational.smaller_eq, Rational.smaller_eq]
  exact (Monotone.map_min fun _ _ h => u.le_iff.2 h).symm

/-! ## Lists -/

theorem greatest?_map (xs : List ℚ) : greatest? (xs.map u) = (greatest? xs).map u := by
  cases xs with
  | nil => rfl
  | cons x xs =>
      rw [List.map_cons, greatest?, greatest?, Option.map_some, List.foldl_map]
      exact congrArg some (List.foldl_hom u.apply u.larger_eq)

theorem least?_map (xs : List ℚ) : least? (xs.map u) = (least? xs).map u := by
  cases xs with
  | nil => rfl
  | cons x xs =>
      rw [List.map_cons, least?, least?, Option.map_some, List.foldl_map]
      exact congrArg some (List.foldl_hom u.apply u.smaller_eq)

theorem sortedDistinct_map (xs : List ℚ) :
    sortedDistinct (xs.map u) = (sortedDistinct xs).map u := by
  apply Rational.sortedDistinct_eq_of_mem_iff
  · exact List.pairwise_map.2 ((Rational.pairwise_sortedDistinct xs).imp u.lt_iff.2)
  · intro x
    simp only [List.mem_map, Rational.mem_sortedDistinct]

theorem sum_div_length (hne : xs ≠ []) :
    (xs.map u).sum / (xs.map u).length = u (xs.sum / xs.length) := by
  have hlength : (xs.length : ℚ) ≠ 0 := Nat.cast_ne_zero.2 (List.length_pos_of_ne_nil hne).ne'
  have hsum : (xs.map u).sum = u.scale * xs.sum + u.shift * xs.length := by
    unfold apply
    rw [List.sum_map_add, List.sum_map_mul_left, List.map_id', List.map_const', List.sum_replicate,
      nsmul_eq_mul, mul_comm u.shift]
  rw [hsum, List.length_map, apply]
  field_simp

end Rescaling

/-! ## Corners -/

def Corner.rescale (u v : Rescaling) (p : Corner ℚ) : Corner ℚ := ⟨u p.x, v p.y⟩

def Corner.move (u : Rescaling) (p : Corner ℚ) : Corner ℚ := ⟨u p.x, p.y⟩

theorem Corner.rescale_id (u : Rescaling) : Corner.rescale u .id = Corner.move u := by
  funext p
  rw [rescale, Rescaling.id_apply, move]

namespace Rescaling

open Polyline

variable (u v : Rescaling) (x : ℚ) (p q : Corner ℚ) (corners : List (Corner ℚ))

/-! ## Heights -/

theorem heightBetween_rescale :
    heightBetween (u x) (p.rescale u v) (q.rescale u v) = v (heightBetween x p q) := by
  simp only [heightBetween, Corner.rescale, beq_eq, larger_eq, apply_ite v.apply]
  have hslope : u.scale * (x - p.x) * (v.scale * (q.y - p.y)) / (u.scale * (q.x - p.x)) =
      v.scale * ((x - p.x) * (q.y - p.y) / (q.x - p.x)) := by
    rw [mul_assoc, mul_div_mul_left _ _ u.scale_pos.ne', mul_left_comm, mul_div_assoc]
  have hbetween : v p.y + (u x - u p.x) * (v q.y - v p.y) / (u q.x - u p.x) =
      v (p.y + (x - p.x) * (q.y - p.y) / (q.x - p.x)) := by
    rw [sub_eq, sub_eq, sub_eq, hslope, apply, apply]
    ring
  rw [hbetween]

theorem heightsAt_rescale :
    heightsAt (u x) (corners.map (Corner.rescale u v)) = (heightsAt x corners).map v := by
  unfold heightsAt
  rw [consecutive_map, List.takeWhile_map, List.filter_map, List.map_map, List.map_map]
  have hstart : ((fun s : Corner ℚ × Corner ℚ => decide (¬ u x < s.1.x)) ∘
      Prod.map (Corner.rescale u v) (Corner.rescale u v)) = fun s => decide (¬ x < s.1.x) := by
    funext s
    exact decide_eq_decide.2 (not_congr u.lt_iff)
  have hend : ((fun s : Corner ℚ × Corner ℚ => decide (¬ s.2.x < u x)) ∘
      Prod.map (Corner.rescale u v) (Corner.rescale u v)) = fun s => decide (¬ s.2.x < x) := by
    funext s
    exact decide_eq_decide.2 (not_congr u.lt_iff)
  rw [hstart, hend]
  exact List.map_congr_left fun s _ => heightBetween_rescale u v x s.1 s.2

theorem height?_rescale :
    height? (u x) (corners.map (Corner.rescale u v)) = (height? x corners).map v := by
  cases corners with
  | nil => rfl
  | cons first rest =>
      have hheights := heightsAt_rescale u v x (first :: rest)
      rw [List.map_cons] at hheights ⊢
      simp only [height?]
      rw [hheights, greatest?_map, List.getLastD_map]
      change (if u x < u first.x then some (v first.y)
        else if u (rest.getLastD first).x < u x then some (v (rest.getLastD first).y)
        else some ((Option.map v _).getD (v first.y))) = _
      simp only [u.lt_iff, Option.getD_map]
      split_ifs <;> rfl

/-- A curve in other units is as high at the new place as before at the old. -/
theorem height?_move : height? (u x) (corners.map (Corner.move u)) = height? x corners := by
  rw [← Corner.rescale_id, height?_rescale]
  cases height? x corners with
  | none => rfl
  | some y => exact congrArg some (id_apply y)

/-! ## Areas -/

theorem segmentArea_move :
    segmentArea (p.move u) (q.move u) = u.scale * segmentArea p q := by
  simp only [segmentArea, Corner.move, Rational.two_eq, apply]
  ring

theorem segmentMoment_move :
    Rational.segmentMoment (p.move u) (q.move u) =
      u.scale * (u.scale * Rational.segmentMoment p q + u.shift * segmentArea p q) := by
  simp only [segmentArea, Rational.segmentMoment, Corner.move, Rational.two_eq, apply]
  ring

theorem lamina_move :
    lamina (corners.map (Corner.move u)) =
      ⟨u.scale * (lamina corners).area,
        u.scale * (u.scale * (lamina corners).moment + u.shift * (lamina corners).area)⟩ := by
  rw [Rational.lamina_eq, Rational.lamina_eq, consecutive_map, List.map_map, List.map_map]
  simp only [Function.comp_def, Prod.map_fst, Prod.map_snd, segmentArea_move, segmentMoment_move]
  rw [List.sum_map_mul_left, List.sum_map_mul_left, List.sum_map_add, List.sum_map_mul_left,
    List.sum_map_mul_left]

theorem centerOfGravity?_move :
    centerOfGravity? (corners.map (Corner.move u)) = (centerOfGravity? corners).map u := by
  unfold centerOfGravity?
  rw [lamina_move]
  dsimp only
  by_cases hpos : 0 < (lamina corners).area
  · have hcenter : u.scale * (u.scale * (lamina corners).moment + u.shift * (lamina corners).area) /
        (u.scale * (lamina corners).area) =
        u ((lamina corners).moment / (lamina corners).area) := by
      rw [mul_div_mul_left _ _ u.scale_pos.ne', apply]
      field_simp
    rw [if_pos hpos, if_pos (mul_pos u.scale_pos hpos), hcenter, Option.map_some]
  · have hpos' : ¬ 0 < u.scale * (lamina corners).area := by
      rwa [mul_pos_iff_of_pos_left u.scale_pos]
    rw [if_neg hpos, if_neg hpos', Option.map_none]

end Rescaling

/-! ## Points, curves and shapes -/

structure Point.Rescaled (u : Rescaling) (p q : Point ℚ) : Prop where
  x : q.x = u p.x
  y : q.y = p.y

inductive Shape.Rescaled (u : Rescaling) : Shape ℚ → Shape ℚ → Prop
  | graph {kind : CurveKind} {c c' : Curve ℚ} {h : kind.Fits c} {h' : kind.Fits c'}
      (hpoints : List.Forall₂ (Point.Rescaled u) c.points c'.points) :
      Rescaled u (.graph kind c h) (.graph kind c' h')
  | singleton {support support' : Position ℚ} (hx : support'.x = u support.x) :
      Rescaled u (.singleton support) (.singleton support')

namespace Curve

open Fallible Polyline

variable {u : Rescaling} {c c' : Curve ℚ}

theorem corners_rescaled (h : List.Forall₂ (Point.Rescaled u) c.points c'.points) :
    c'.corners = c.corners.map (Corner.move u) := by
  rw [corners, corners, List.map_map]
  exact map_eq_of_forall₂ h fun p _ q hq => by
    rw [Point.corner, hq.x, hq.y]
    rfl

theorem heights_rescaled (h : List.Forall₂ (Point.Rescaled u) c.points c'.points) :
    c'.points.map Point.y = c.points.map Point.y :=
  map_eq_of_forall₂ h fun _ _ _ hq => hq.y

theorem membership_rescaled (h : List.Forall₂ (Point.Rescaled u) c.points c'.points) (x : ℚ) :
    c'.membership (u x) = c.membership x := by
  rw [membership, membership, corners_rescaled h, u.height?_move, lowest, lowest, highest, highest,
    heights_rescaled h]

theorem centroid_rescaled (h : List.Forall₂ (Point.Rescaled u) c.points c'.points) :
    c'.centroid = u c.centroid := by
  unfold centroid
  rw [corners_rescaled h, u.centerOfGravity?_move]
  cases centerOfGravity? c.corners with
  | some x => rfl
  | none =>
      have hhighest : c'.highest = c.highest := by
        rw [highest, highest, heights_rescaled h]
      have htops := List.rel_filter (p := fun p => p.y == c.highest)
        (q := fun p => p.y == c'.highest) (fun p q hpq => by simp only [hpq.y, hhighest]) h
      have hplaces : ((c'.points.filter fun p => p.y == c'.highest).map fun p => p.x) =
          ((c.points.filter fun p => p.y == c.highest).map fun p => p.x).map u := by
        rw [List.map_map]
        exact map_eq_of_forall₂ htops fun p _ q hq => hq.x
      obtain ⟨p, hp, hy⟩ := Rational.exists_highest c
      have hne : (c.points.filter fun p => p.y == c.highest).map (fun p => p.x) ≠ [] :=
        List.ne_nil_of_mem (List.mem_map_of_mem (List.mem_filter.2 ⟨hp, beq_iff_eq.2 hy⟩))
      rw [Option.map_none, Option.getD_none, Option.getD_none, mean, mean, Rational.sum_eq,
        Rational.sum_eq, hplaces]
      exact u.sum_div_length hne

theorem exists_rescaled (h : ∀ p ∈ c.points, 0 ≤ u p.x) :
    ∃ c' : Curve ℚ, List.Forall₂ (Point.Rescaled u) c.points c'.points := by
  obtain ⟨points, hpoints⟩ := exists_forall₂ (R := Point.Rescaled u) fun p hp =>
    ⟨⟨⟨u p.x, rfl, not_lt.2 (h p hp)⟩, p.y⟩, rfl, rfl⟩
  have hne : points ≠ [] := by
    rintro rfl
    exact c.ne_nil (List.forall₂_nil_right_iff.1 hpoints)
  have hascending : Point.Ascending points := by
    intro t ht
    obtain ⟨s, hs, hx, hy⟩ := exists_mem_of_forall₂ (forall₂_consecutive hpoints).flip ht
    rw [hx.x, hy.x, u.lt_iff]
    exact c.ascending s hs
  exact ⟨⟨points, hne, hascending⟩, hpoints⟩

theorem fits_rescaled {kind : CurveKind} (h : List.Forall₂ (Point.Rescaled u) c.points c'.points)
    (hfits : kind.Fits c) : kind.Fits c' := by
  generalize hpoints' : c'.points = points' at h
  cases kind with
  | polyline => trivial
  | triangle =>
      obtain ⟨left, peak, right, hpoints, houter, hpeak⟩ := hfits
      rw [hpoints] at h
      obtain _ | ⟨hleft, _ | ⟨hpeak', _ | ⟨hright, _ | _⟩⟩⟩ := h
      refine ⟨_, _, _, hpoints', ?_, ?_⟩
      · rw [hleft.y, hright.y, houter]
      · rwa [hleft.y, hpeak'.y]
  | trapezoid =>
      rcases hfits with ⟨left, rise, fall, right, hpoints, houter, hinner, hrise⟩ |
        ⟨left, right, hpoints⟩
      · rw [hpoints] at h
        obtain _ | ⟨hleft, _ | ⟨hrise', _ | ⟨hfall, _ | ⟨hright, _ | _⟩⟩⟩⟩ := h
        refine .inl ⟨_, _, _, _, hpoints', ?_, ?_, ?_⟩
        · rw [hleft.y, hright.y, houter]
        · rw [hrise'.y, hfall.y, hinner]
        · rwa [hleft.y, hrise'.y]
      · rw [hpoints] at h
        obtain _ | ⟨_, _ | ⟨_, _ | _⟩⟩ := h
        exact .inr ⟨_, _, hpoints'⟩

end Curve

namespace Shape

variable {u : Rescaling} {s t : Shape ℚ}

namespace Rescaled

theorem isSingleton_eq (h : Rescaled u s t) : t.isSingleton = s.isSingleton := by
  cases h <;> rfl

theorem positions (h : Rescaled u s t) : t.positions = s.positions.map u := by
  cases h with
  | graph hpoints =>
      rw [Shape.positions, Shape.positions, List.map_map]
      exact Fallible.map_eq_of_forall₂ hpoints fun _ _ _ hq => hq.x
  | singleton hx => exact congrArg (fun x => [x]) hx

theorem lower (h : Rescaled u s t) : t.lower = u s.lower := by
  cases h with
  | @graph kind c c' _ _ hpoints => exact (forall₂_head hpoints c.ne_nil c'.ne_nil).x
  | singleton hx => exact hx

theorem upper (h : Rescaled u s t) : t.upper = u s.upper := by
  cases h with
  | @graph kind c c' _ _ hpoints => exact (forall₂_getLast hpoints c.ne_nil c'.ne_nil).x
  | singleton hx => exact hx

theorem membership (h : Rescaled u s t) (x : ℚ) : t.membership (u x) = s.membership x := by
  cases h with
  | graph hpoints => exact Curve.membership_rescaled hpoints x
  | singleton hx =>
      rw [Shape.membership, Shape.membership, hx, u.beq_eq]

theorem centroid (h : Rescaled u s t) : t.centroid = u s.centroid := by
  cases h with
  | graph hpoints => exact Curve.centroid_rescaled hpoints
  | singleton hx => exact hx

end Rescaled

/-- A shape can be measured in units in which none of its positions is negative. -/
theorem exists_rescaled (s : Shape ℚ) :
    (∃ t, Rescaled u s t) ↔ ∀ x ∈ s.positions, 0 ≤ u x := by
  constructor
  · rintro ⟨t, ht⟩ x hx
    have hmem : u x ∈ t.positions := by
      rw [ht.positions]
      exact List.mem_map_of_mem hx
    cases t with
    | graph kind c fits =>
        obtain ⟨p, -, hp⟩ := List.mem_map.1 hmem
        exact hp ▸ not_lt.1 p.nonneg
    | singleton support =>
        rw [List.mem_singleton.1 hmem]
        exact not_lt.1 support.nonneg
  · intro h
    cases s with
    | graph kind c fits =>
        obtain ⟨c', hc'⟩ := Curve.exists_rescaled fun p hp => h p.x (List.mem_map_of_mem hp)
        exact ⟨.graph kind c' (Curve.fits_rescaled hc' fits), .graph hc'⟩
    | singleton support =>
        have hsupport : 0 ≤ u support.x := h support.x (List.mem_singleton_self _)
        exact ⟨.singleton ⟨u support.x, rfl, not_lt.2 hsupport⟩, .singleton rfl⟩

end Shape

end FuzzyInference
