import FuzzyInference.Proofs.Binary.Degree
import FuzzyInference.Proofs.Curve.Range
import FuzzyInference.Proofs.Curve.Rounded

/-!
# The outline of the standard shapes

A triangle or a trapezoid rises to its top and falls after it, and a shoulder
only rises or only falls.  In double precision this holds of every two numbers,
within a segment, across the points and at the ends, also where the points of a
shape coincide.
-/

namespace FuzzyInference

open Scalar Binary

/-! ## Slopes -/

namespace Curve

variable {c : Curve Float} {x y : Float}

section Ends

variable {p : Position Float} {d : Degree Float} {rest : List (Point Float)}

theorem membership_of_lt_first (hpoints : c.points = ⟨p, d⟩ :: rest) (hlt : x < p.x) :
    c.membership x = d := by
  have hfirst : c.first = ⟨p, d⟩ := by simp [first, hpoints]
  obtain ⟨hx, hp⟩ := not_isNaN_of_lt hlt
  have hbefore : level x < level c.first.x := by
    rw [hfirst]
    exact (lt_iff_level hx hp).1 hlt
  rw [ranks.membership_before hx hbefore, hfirst]

theorem membership_of_gt_last (before : List (Point Float))
    (hpoints : c.points = before ++ [⟨p, d⟩]) (hlt : p.x < x) : c.membership x = d := by
  have hlast : c.last = ⟨p, d⟩ := by simp [last, hpoints]
  obtain ⟨hp, hx⟩ := not_isNaN_of_lt hlt
  have hbeyond : level c.last.x < level x := by
    rw [hlast]
    exact (lt_iff_level hp hx).1 hlt
  rw [ranks.membership_beyond hx hbeyond, hlast]

theorem first_le_membership (hpoints : c.points = ⟨p, d⟩ :: rest) (hle : x ≤ p.x) :
    d ≤ c.membership x := by
  obtain ⟨hx, hp⟩ := not_isNaN_of_le hle
  rcases ((le_iff_level hx hp).1 hle).eq_or_lt with heq | hlt
  · have hmem : ⟨p, d⟩ ∈ c.points := by simp [hpoints]
    have hheight := ranks.le_membership hmem hx heq.symm
    exact hheight
  · rw [membership_of_lt_first hpoints ((lt_iff_level hx hp).2 hlt)]
    exact ranks.degree_le_iff.2 le_rfl

theorem last_le_membership (before : List (Point Float))
    (hpoints : c.points = before ++ [⟨p, d⟩]) (hle : p.x ≤ x) : d ≤ c.membership x := by
  obtain ⟨hp, hx⟩ := not_isNaN_of_le hle
  rcases ((le_iff_level hp hx).1 hle).eq_or_lt with heq | hlt
  · have hmem : ⟨p, d⟩ ∈ c.points := by simp [hpoints]
    have hheight := ranks.le_membership hmem hx heq
    exact hheight
  · rw [membership_of_gt_last before hpoints ((lt_iff_level hp hx).2 hlt)]
    exact ranks.degree_le_iff.2 le_rfl

end Ends

section Slopes

variable {p q : Point Float}

/-- From a lowest first point a curve rises to a highest second one. -/
theorem membership_mono_of_first {rest : List (Point Float)} (hpoints : c.points = p :: q :: rest)
    (hlow : p.y ≤ c.lowest) (hhigh : c.highest ≤ q.y) (hx : ¬ IsNaN x) (hy : ¬ IsNaN y)
    (hxy : level x ≤ level y) (hyq : level y ≤ level q.x) : c.membership x ≤ c.membership y := by
  have hpq : (p, q) ∈ consecutive c.points := by
    rw [hpoints, consecutive_cons_cons]
    exact List.mem_cons_self
  obtain ⟨hp, hq⟩ := mem_of_mem_consecutive hpq
  -- the curve is at its highest at the second point and at its lowest up to the
  -- first, so that only between them anything depends on rounding
  rcases hyq.eq_or_lt with hend | hlt
  · calc c.membership x ≤ c.highest := ranks.height_le_highest c x
      _ ≤ q.y := hhigh
      _ ≤ c.membership y := ranks.le_membership hq hy hend.symm
  rcases le_or_gt (level x) (level p.x) with hle | hpx
  · calc c.membership x = p.y := ranks.membership_of_le_first hpoints hx hle (hxy.trans_lt hlt)
      _ ≤ c.lowest := hlow
      _ ≤ c.membership y := ranks.lowest_le_height c y
  · have hrise : p.y ≤ q.y := ranks.degree_le_trans (ranks.le_highest hp) hhigh
    exact membership_mono_between hpq hrise hx hy hpx hxy hlt

theorem membership_anti_of_last (before : List (Point Float))
    (hpoints : c.points = before ++ [p, q]) (hhigh : c.highest ≤ p.y) (hlow : q.y ≤ c.lowest)
    (hx : ¬ IsNaN x) (hy : ¬ IsNaN y) (hpx : level p.x ≤ level x) (hxy : level x ≤ level y) :
    c.membership y ≤ c.membership x := by
  have hpq : (p, q) ∈ consecutive c.points := hpoints ▸ mem_consecutive_append before p q
  obtain ⟨hp, hq⟩ := mem_of_mem_consecutive hpq
  rcases hpx.eq_or_lt with hstart | hlt
  · calc c.membership y ≤ c.highest := ranks.height_le_highest c y
      _ ≤ p.y := hhigh
      _ ≤ c.membership x := ranks.le_membership hp hx hstart
  rcases le_or_gt (level q.x) (level y) with hle | hyq
  · calc c.membership y = q.y := ranks.membership_of_ge_last hpoints hy (hlt.trans_le hxy) hle
      _ ≤ c.lowest := hlow
      _ ≤ c.membership x := ranks.lowest_le_height c x
  · have hfall : q.y ≤ p.y := ranks.degree_le_trans (ranks.le_highest hq) hhigh
    exact membership_anti_between hpq hfall hx hy hlt hxy hyq

end Slopes

end Curve

/-! ## Standard shapes -/

/-- A shape stands at `low` before `x₁` and does not fall up to `x₂`. -/
structure Shape.Rises (s : Shape Float) (x₁ x₂ : Float) (low : Degree Float) : Prop where
  before : ∀ x, x < x₁ → (s.membership x == low) = true
  mono : ∀ x y, x ≤ y → y ≤ x₂ → s.membership x ≤ s.membership y

/-- A shape does not rise from `x₁` on and stands at `low` after `x₂`. -/
structure Shape.Falls (s : Shape Float) (x₁ x₂ : Float) (low : Degree Float) : Prop where
  anti : ∀ x y, x₁ ≤ x → x ≤ y → s.membership y ≤ s.membership x
  after : ∀ x, x₂ < x → (s.membership x == low) = true

structure Shape.Hill (s : Shape Float) (x₁ x₂ x₃ x₄ : Float) (low high : Degree Float) : Prop where
  rises : s.Rises x₁ x₂ low
  top : ∀ x, x₂ ≤ x → x ≤ x₃ → (s.membership x == high) = true
  falls : s.Falls x₃ x₄ low

structure Shape.Descent (s : Shape Float) (x₁ x₂ : Float) (low high : Degree Float) : Prop where
  top : ∀ x, x ≤ x₁ → (s.membership x == high) = true
  anti : ∀ x y, x ≤ y → s.membership y ≤ s.membership x
  after : ∀ x, x₂ < x → (s.membership x == low) = true

structure Shape.Ascent (s : Shape Float) (x₁ x₂ : Float) (low high : Degree Float) : Prop where
  before : ∀ x, x < x₁ → (s.membership x == low) = true
  mono : ∀ x y, x ≤ y → s.membership x ≤ s.membership y
  top : ∀ x, x₂ ≤ x → (s.membership x == high) = true

namespace Curve.Spans

variable {c : Curve Float} {low high : Degree Float} {p q r s : Position Float}
  {rest : List (Point Float)} {x y : Float} {kind : CurveKind} {fits : kind.Fits c}

theorem le_lowest (hc : c.Spans low high) : low ≤ c.lowest :=
  ranks.degree_le_iff.2 (ranks.degree_beq_iff.1 (ranks.extremes_of_spans hc).1).ge

theorem highest_le (hc : c.Spans low high) : c.highest ≤ high :=
  ranks.degree_le_iff.2 (ranks.degree_beq_iff.1 (ranks.extremes_of_spans hc).2).le

theorem membership_beq_high (hc : c.Spans low high) (hle : high ≤ c.membership x) :
    (c.membership x == high) = true :=
  have hge := ranks.degree_le_trans (ranks.height_le_highest c x) hc.highest_le
  ranks.degree_beq_iff.2 (le_antisymm (ranks.degree_le_iff.1 hge) (ranks.degree_le_iff.1 hle))

theorem top_of_point {p : Point Float} (hc : c.Spans low high) (hp : p ∈ c.points)
    (hhigh : p.y = high) (hx : ¬ IsNaN x) (hpx : level p.x = level x) :
    (c.membership x == high) = true := by
  have hheight := ranks.le_membership hp hx hpx
  rw [hhigh] at hheight
  exact hc.membership_beq_high hheight

theorem rises (hc : c.Spans low high) (hpoints : c.points = ⟨p, low⟩ :: ⟨q, high⟩ :: rest) :
    (Shape.graph kind c fits).Rises p.x q.x low where
  before x hlt := by
    rw [Shape.membership, membership_of_lt_first hpoints hlt]
    exact ranks.degree_beq_iff.2 rfl
  mono x y hxy hyq := by
    obtain ⟨hx, hy⟩ := not_isNaN_of_le hxy
    have hq := (not_isNaN_of_le hyq).2
    exact membership_mono_of_first hpoints hc.le_lowest hc.highest_le hx hy
      ((le_iff_level hx hy).1 hxy) ((le_iff_level hy hq).1 hyq)

theorem falls (hc : c.Spans low high) (before : List (Point Float))
    (hpoints : c.points = before ++ [⟨p, high⟩, ⟨q, low⟩]) :
    (Shape.graph kind c fits).Falls p.x q.x low where
  anti x y hpx hxy := by
    obtain ⟨hx, hy⟩ := not_isNaN_of_le hxy
    have hp := (not_isNaN_of_le hpx).1
    exact membership_anti_of_last before hpoints hc.highest_le hc.le_lowest hx hy
      ((le_iff_level hp hx).1 hpx) ((le_iff_level hx hy).1 hxy)
  after x hlt := by
    rw [List.append_cons] at hpoints
    rw [Shape.membership, membership_of_gt_last _ hpoints hlt]
    exact ranks.degree_beq_iff.2 rfl

theorem hill_of_triangle (hc : c.Spans low high)
    (hpoints : c.points = [⟨p, low⟩, ⟨q, high⟩, ⟨r, low⟩]) :
    (Shape.graph kind c fits).Hill p.x q.x q.x r.x low high where
  rises := hc.rises hpoints
  top x hqx hxq := by
    obtain ⟨hq, hx⟩ := not_isNaN_of_le hqx
    have hmem : ⟨q, high⟩ ∈ c.points := by simp [hpoints]
    exact hc.top_of_point hmem rfl hx
      (le_antisymm ((le_iff_level hq hx).1 hqx) ((le_iff_level hx hq).1 hxq))
  falls := hc.falls [⟨p, low⟩] hpoints

theorem hill_of_trapezoid (hc : c.Spans low high)
    (hpoints : c.points = [⟨p, low⟩, ⟨q, high⟩, ⟨r, high⟩, ⟨s, low⟩]) :
    (Shape.graph kind c fits).Hill p.x q.x r.x s.x low high where
  rises := hc.rises hpoints
  top x hqx hxr := by
    obtain ⟨hq, hx⟩ := not_isNaN_of_le hqx
    have hr := (not_isNaN_of_le hxr).2
    have hqr : (⟨q, high⟩, ⟨r, high⟩) ∈ consecutive c.points := by
      simp [hpoints, consecutive_cons_cons]
    obtain ⟨hmem, hmem'⟩ := mem_of_mem_consecutive hqr
    rcases ((le_iff_level hq hx).1 hqx).eq_or_lt with hstart | hafter
    · exact hc.top_of_point hmem rfl hx hstart
    rcases ((le_iff_level hx hr).1 hxr).eq_or_lt with hend | hbefore
    · exact hc.top_of_point hmem' rfl hx hend.symm
    · have hflat := membership_flat_between hqr rfl hx hafter hbefore
      exact hflat
  falls := hc.falls [⟨p, low⟩, ⟨q, high⟩] hpoints

theorem descent (hc : c.Spans low high) (hpoints : c.points = [⟨p, high⟩, ⟨q, low⟩]) :
    (Shape.graph kind c fits).Descent p.x q.x low high where
  top x hle := hc.membership_beq_high (first_le_membership hpoints hle)
  anti x y hxy := by
    obtain ⟨hx, -⟩ := not_isNaN_of_le hxy
    have hp := ranks.not_nan_position p
    rcases le_total (level x) (level p.x) with hle | hge
    · calc c.membership y ≤ c.highest := ranks.height_le_highest c y
        _ ≤ high := hc.highest_le
        _ ≤ c.membership x := first_le_membership hpoints ((le_iff_level hx hp).2 hle)
    · exact (hc.falls [] hpoints).anti x y ((le_iff_level hp hx).2 hge) hxy
  after := (hc.falls [] hpoints).after

theorem ascent (hc : c.Spans low high) (hpoints : c.points = [⟨p, low⟩, ⟨q, high⟩]) :
    (Shape.graph kind c fits).Ascent p.x q.x low high where
  before := (hc.rises hpoints).before
  mono x y hxy := by
    obtain ⟨-, hy⟩ := not_isNaN_of_le hxy
    have hq := ranks.not_nan_position q
    rcases le_total (level y) (level q.x) with hle | hge
    · exact (hc.rises hpoints).mono x y hxy ((le_iff_level hy hq).2 hle)
    · calc c.membership x ≤ c.highest := ranks.height_le_highest c x
        _ ≤ high := hc.highest_le
        _ ≤ c.membership y := last_le_membership [_] hpoints ((le_iff_level hq hy).2 hge)
  top x hle := hc.membership_beq_high (last_le_membership [_] hpoints hle)

end Curve.Spans

/-- In double precision triangles and trapezoids rise to their top and fall
after it, and shoulders only fall or only rise.  Before and after that they
stand at one height. -/
theorem Shape.outline (x₁ x₂ x₃ x₄ : Float) (low high : Degree Float) (s : Shape Float) :
    (ofTriangle x₁ x₂ x₃ low high = .ok s → s.Hill x₁ x₂ x₂ x₃ low high) ∧
    (ofTrapezoid x₁ x₂ x₃ x₄ low high = .ok s → s.Hill x₁ x₂ x₃ x₄ low high) ∧
    (ofLeftEdge x₁ x₂ low high = .ok s → s.Descent x₁ x₂ low high) ∧
    (ofRightEdge x₁ x₂ low high = .ok s → s.Ascent x₁ x₂ low high) := by
  refine ⟨fun h => ?_, fun h => ?_, fun h => ?_, fun h => ?_⟩
  · have hheights : s.HasHeights low high := .triangle _ _ _ h
    obtain ⟨-, p, q, r, ⟨rfl, rfl, rfl⟩, c, fits, hpoints, rfl⟩ := ofTriangle_eq_ok_iff.1 h
    exact hheights.spans_curve.hill_of_triangle hpoints
  · have hheights : s.HasHeights low high := .trapezoid _ _ _ _ h
    obtain ⟨-, p, q, r, t, ⟨rfl, rfl, rfl, rfl⟩, c, fits, hpoints, rfl⟩ :=
      ofTrapezoid_eq_ok_iff.1 h
    exact hheights.spans_curve.hill_of_trapezoid hpoints
  · have hheights : s.HasHeights low high := .leftEdge _ _ h
    obtain ⟨-, p, q, ⟨rfl, rfl⟩, c, fits, hpoints, rfl⟩ := ofLeftEdge_eq_ok_iff.1 h
    exact hheights.spans_curve.descent hpoints
  · have hheights : s.HasHeights low high := .rightEdge _ _ h
    obtain ⟨-, p, q, ⟨rfl, rfl⟩, c, fits, hpoints, rfl⟩ := ofRightEdge_eq_ok_iff.1 h
    exact hheights.spans_curve.ascent hpoints

/-- A triangle and a trapezoid with a vertical side each, and two shoulders, the
second of them a step. -/
theorem Shape.outline_of_verticalSides :
    (∃ s, ofTriangle (0.1 : Float) 0.7 0.7 0 1 = .ok s ∧ (s.membership 0.7 == 1) = true ∧
      s.membership 0.3 ≤ s.membership 0.6) ∧
    (∃ s, ofTrapezoid (2 : Float) 2 3 5 0 1 = .ok s ∧ (s.membership 2.5 == 1) = true ∧
      s.membership 4.1 ≤ s.membership 3.9) ∧
    (∃ s, ofLeftEdge (1 : Float) 3 0 1 = .ok s ∧ s.membership 2.3 ≤ s.membership 1.9) ∧
    ∃ s, ofRightEdge (1 : Float) 1 0 1 = .ok s ∧ s.membership 0.9 ≤ s.membership 1 := by
  have hruns : ((ofTriangle (0.1 : Float) 0.7 0.7 0 1).toOption.isSome &&
      (ofTrapezoid (2 : Float) 2 3 5 0 1).toOption.isSome &&
      (ofLeftEdge (1 : Float) 3 0 1).toOption.isSome &&
      (ofRightEdge (1 : Float) 1 0 1).toOption.isSome) = true := by decide +kernel
  simp only [Bool.and_eq_true, Option.isSome_iff_exists, Fallible.toOption_eq_some] at hruns
  obtain ⟨⟨⟨⟨s, hs⟩, t, ht⟩, u, hu⟩, v, hv⟩ := hruns
  have hill := (outline 0.1 0.7 0.7 0 0 1 s).1 hs
  have plateau := (outline 2 2 3 5 0 1 t).2.1 ht
  have descent := (outline 1 3 0 0 0 1 u).2.2.1 hu
  have ascent := (outline 1 1 0 0 0 1 v).2.2.2 hv
  refine ⟨⟨s, hs, ?_, ?_⟩, ⟨t, ht, ?_, ?_⟩, ⟨u, hu, ?_⟩, v, hv, ?_⟩
  · exact hill.top _ (by decide +kernel) (by decide +kernel)
  · exact hill.rises.mono _ _ (by decide +kernel) (by decide +kernel)
  · exact plateau.top _ (by decide +kernel) (by decide +kernel)
  · exact plateau.falls.anti _ _ (by decide +kernel) (by decide +kernel)
  · exact descent.anti _ _ (by decide +kernel)
  · exact ascent.mono _ _ (by decide +kernel)

end FuzzyInference
