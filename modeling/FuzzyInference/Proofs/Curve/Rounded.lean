import FuzzyInference.Proofs.Binary.Extremes
import FuzzyInference.Proofs.Curve.Peaks
import FuzzyInference.Proofs.Logic.Closure

/-!
# The rounded height of a segment

Between two points of a curve the height is calculated with six rounded
operations.  None of them overflows, because heights are degrees and positions
are not negative, and each keeps the order of its argument.  So in double
precision a curve rises within a segment whose points do, and falls within one
whose points do.
-/

namespace FuzzyInference

open Scalar Binary

namespace Binary

variable {a b u v x y : ℚ}

/-- The height at `x` of the segment from `(a, u)` to `(b, v)`, with every
operation rounded. -/
def roundedHeight (a b u v x : ℚ) : ℚ :=
  rounded (u + rounded (rounded (rounded (x - a) * rounded (v - u)) / rounded (b - a)))

/-! ## Order -/

theorem roundedHeight_mono (hab : a ≤ b) (huv : u ≤ v) (hxy : x ≤ y) :
    roundedHeight a b u v x ≤ roundedHeight a b u v y := by
  have hwidth : 0 ≤ rounded (b - a) := rounded_nonneg (sub_nonneg.2 hab)
  have hrise : 0 ≤ rounded (v - u) := rounded_nonneg (sub_nonneg.2 huv)
  have hpart : rounded (x - a) ≤ rounded (y - a) := rounded_mono (sub_le_sub_right hxy a)
  have hproduct := rounded_mono (mul_le_mul_of_nonneg_right hpart hrise)
  have hquotient := rounded_mono (div_le_div_of_nonneg_right hproduct hwidth)
  exact rounded_mono (add_le_add_right hquotient u)

theorem roundedHeight_anti (hab : a ≤ b) (hvu : v ≤ u) (hxy : x ≤ y) :
    roundedHeight a b u v y ≤ roundedHeight a b u v x := by
  have hwidth : 0 ≤ rounded (b - a) := rounded_nonneg (sub_nonneg.2 hab)
  have hfall : rounded (v - u) ≤ 0 := rounded_le isValue_zero.isDouble (sub_nonpos.2 hvu)
  have hpart : rounded (x - a) ≤ rounded (y - a) := rounded_mono (sub_le_sub_right hxy a)
  have hproduct := rounded_mono (mul_le_mul_of_nonpos_right hpart hfall)
  have hquotient := rounded_mono (div_le_div_of_nonneg_right hproduct hwidth)
  exact rounded_mono (add_le_add_right hquotient u)

theorem roundedHeight_flat (hu : IsDouble u) : roundedHeight a b u u x = u := by
  rw [roundedHeight, sub_self, rounded_zero, mul_zero, rounded_zero, zero_div, rounded_zero,
    add_zero, rounded_of_isDouble hu]

/-! ## Bounds -/

theorem abs_scaled_le (hax : a ≤ x) (hchange : |v - u| ≤ 1) :
    |rounded (x - a) * rounded (v - u)| ≤ rounded (x - a) := by
  have hpart : 0 ≤ rounded (x - a) := rounded_nonneg (sub_nonneg.2 hax)
  rw [abs_mul, abs_of_nonneg hpart]
  exact mul_le_of_le_one_right hpart (abs_rounded_le isValue_one.isDouble hchange)

theorem abs_share_le (hpart : IsDouble (rounded (x - a))) (hwidth : 0 < rounded (b - a))
    (hax : a ≤ x) (hxb : x ≤ b) (hchange : |v - u| ≤ 1) :
    |rounded (rounded (x - a) * rounded (v - u)) / rounded (b - a)| ≤ 1 := by
  have hscaled := abs_rounded_le hpart (abs_scaled_le hax hchange)
  rw [abs_div, abs_of_pos hwidth, div_le_one hwidth]
  exact hscaled.trans (rounded_mono (sub_le_sub_right hxb a))

/-! ## Numbers -/

variable {p q : Corner Float} {f : Float}

/-- On the way between corners that stand at numbers, neither of them negative,
nothing overflows. -/
theorem isValue_height (hpx : IsValue p.x a) (hqx : IsValue q.x b) (hpy : InUnit p.y u)
    (hqy : InUnit q.y v) (hf : IsValue f x) (ha : 0 ≤ a) (hax : a < x) (hxb : x < b) :
    IsValue (p.y + (f - p.x) * (q.y - p.y) / (q.x - p.x)) (roundedHeight a b u v x) := by
  have hwithin {z : ℚ} (hz : |z| ≤ b) : InRange z :=
    inRange_of_abs_le hqx.isDouble ((le_abs_self b).trans_lt hqx.abs_lt) hz
  have hunit {z : ℚ} (hz : |z| ≤ 1) : InRange z := inRange_of_abs_le_two (hz.trans one_le_two)
  have hu := hpy.le_one
  have hu0 := hpy.nonneg
  have hv := hqy.le_one
  have hv0 := hqy.nonneg
  have hpart := hf.sub hpx (hwithin (abs_le.2 ⟨by linarith, by linarith⟩))
  have hwhole := hqx.sub hpx (hwithin (abs_le.2 ⟨by linarith, by linarith⟩))
  have hwidth := rounded_sub_pos hpx.isDouble hqx.isDouble (hax.trans hxb)
  have hchange : |v - u| ≤ 1 := abs_le.2 ⟨by linarith, by linarith⟩
  have hrise := hqy.isValue.sub hpy.isValue (hunit hchange)
  have hpartb : rounded (x - a) ≤ b := rounded_le hqx.isDouble (by linarith)
  have hscaled := hpart.mul hrise (hwithin ((abs_scaled_le hax.le hchange).trans hpartb))
  have hshare := abs_share_le hpart.isDouble hwidth hax.le hxb.le hchange
  have hgain := hscaled.div hwhole hwidth.ne' (hunit hshare)
  refine hpy.isValue.add hgain (inRange_of_abs_le_two ?_)
  calc |u + rounded (rounded (rounded (x - a) * rounded (v - u)) / rounded (b - a))|
      ≤ |u| + |rounded (rounded (rounded (x - a) * rounded (v - u)) / rounded (b - a))| :=
        abs_add_le _ _
    _ ≤ 1 + 1 := add_le_add (abs_le.2 ⟨by linarith, hu⟩)
        (abs_rounded_le isValue_one.isDouble hshare)
    _ = 2 := one_add_one_eq_two

end Binary

/-! ## Curves -/

theorem Position.exists_isValue (p : Position Float) : ∃ a, IsValue p.x a ∧ 0 ≤ a := by
  obtain ⟨a, ha⟩ := isFinite_iff.1 p.finite
  exact ⟨a, ha, not_lt.1 fun h => p.nonneg ((ha.lt_iff isValue_zero).2 h)⟩

namespace Curve

variable {c : Curve Float} {p q : Point Float} {x y : Float}

/-- Between two neighbours a curve has the rounded height of the segment, within
its bounds. -/
theorem exists_roundedHeight (hpq : (p, q) ∈ consecutive c.points) :
    ∃ a b u v, (a ≤ b ∧ InUnit p.y.value u ∧ InUnit q.y.value v) ∧
      ∀ x, ¬ IsNaN x → level p.x < level x → level x < level q.x → ∃ z height, IsValue x z ∧
        IsValue height (roundedHeight a b u v z) ∧
          c.membership x = Degree.clamp height c.lowest c.highest := by
  obtain ⟨a, ha, ha0⟩ := p.exists_isValue
  obtain ⟨b, hb, -⟩ := q.exists_isValue
  obtain ⟨u, hu⟩ := p.y.exists_inUnit
  obtain ⟨v, hv⟩ := q.y.exists_inUnit
  have hascending : ¬ q.x < p.x := c.ascending (p, q) hpq
  have hab : a ≤ b := not_lt.1 fun hlt => hascending ((hb.lt_iff ha).2 hlt)
  refine ⟨a, b, u, v, ⟨hab, hu, hv⟩, fun x hx hpx hxq => ?_⟩
  obtain ⟨z, hz, -, -⟩ := exists_isValue_of_between ha hb
    ((le_iff_level ha.not_isNaN hx).2 hpx.le) ((le_iff_level hx hb.not_isNaN).2 hxq.le)
  have hheight := isValue_height (p := p.corner) (q := q.corner) ha hb hu hv hz ha0
    ((ha.lt_iff hz).1 ((lt_iff_level ha.not_isNaN hx).2 hpx))
    ((hz.lt_iff hb).1 ((lt_iff_level hx hb.not_isNaN).2 hxq))
  exact ⟨z, _, hz, hheight, ranks.membership_of_within hpq hx hpx hxq⟩

private theorem clamp_le_clamp {f g : Float} {r s : ℚ} (hf : IsValue f r) (hg : IsValue g s)
    (hrs : r ≤ s) : Degree.clamp f c.lowest c.highest ≤ Degree.clamp g c.lowest c.highest :=
  have hlevel := (le_iff_level hf.not_isNaN hg.not_isNaN).1 ((hf.le_iff hg).2 hrs)
  ranks.clamp_mono (ranks.lowest_le_highest c) hf.not_isNaN hg.not_isNaN hlevel

theorem membership_mono_between (hpq : (p, q) ∈ consecutive c.points) (hrise : p.y ≤ q.y)
    (hx : ¬ IsNaN x) (hy : ¬ IsNaN y) (hpx : level p.x < level x) (hxy : level x ≤ level y)
    (hyq : level y < level q.x) : c.membership x ≤ c.membership y := by
  obtain ⟨a, b, u, v, ⟨hab, hu, hv⟩, hsegment⟩ := exists_roundedHeight hpq
  obtain ⟨z, height, hz, hheight, hmembership⟩ := hsegment x hx hpx (hxy.trans_lt hyq)
  obtain ⟨w, height', hw, hheight', hmembership'⟩ := hsegment y hy (hpx.trans_le hxy) hyq
  rw [hmembership, hmembership']
  have huv := (hu.isValue.le_iff hv.isValue).1 hrise
  have hzw := (hz.le_iff hw).1 ((le_iff_level hx hy).2 hxy)
  exact clamp_le_clamp hheight hheight' (roundedHeight_mono hab huv hzw)

theorem membership_anti_between (hpq : (p, q) ∈ consecutive c.points) (hfall : q.y ≤ p.y)
    (hx : ¬ IsNaN x) (hy : ¬ IsNaN y) (hpx : level p.x < level x) (hxy : level x ≤ level y)
    (hyq : level y < level q.x) : c.membership y ≤ c.membership x := by
  obtain ⟨a, b, u, v, ⟨hab, hu, hv⟩, hsegment⟩ := exists_roundedHeight hpq
  obtain ⟨z, height, hz, hheight, hmembership⟩ := hsegment x hx hpx (hxy.trans_lt hyq)
  obtain ⟨w, height', hw, hheight', hmembership'⟩ := hsegment y hy (hpx.trans_le hxy) hyq
  rw [hmembership, hmembership']
  have hvu := (hv.isValue.le_iff hu.isValue).1 hfall
  have hzw := (hz.le_iff hw).1 ((le_iff_level hx hy).2 hxy)
  exact clamp_le_clamp hheight' hheight (roundedHeight_anti hab hvu hzw)

theorem membership_flat_between (hpq : (p, q) ∈ consecutive c.points) (hflat : p.y = q.y)
    (hx : ¬ IsNaN x) (hpx : level p.x < level x) (hxq : level x < level q.x) :
    (c.membership x == p.y) = true := by
  obtain ⟨a, b, u, v, ⟨-, hu, hv⟩, hsegment⟩ := exists_roundedHeight hpq
  obtain ⟨z, height, hz, hheight, hmembership⟩ := hsegment x hx hpx hxq
  obtain ⟨hp, -⟩ := mem_of_mem_consecutive hpq
  have hequal : (p.y == q.y) = true := ranks.degree_beq_iff.2 (by rw [hflat])
  have huv : u = v := (hu.isValue.beq_iff hv.isValue).1 hequal
  rw [← huv, roundedHeight_flat hu.isValue.isDouble] at hheight
  have hlevel : level height = level p.y.value := by
    rw [hheight.level_eq, hu.isValue.level_eq]
  rw [hmembership, ranks.degree_beq_iff, ranks.value_clamp_of_between hheight.not_isNaN]
  · exact hlevel
  · exact hlevel ▸ ranks.degree_le_iff.1 (ranks.lowest_le hp)
  · exact hlevel ▸ ranks.degree_le_iff.1 (ranks.le_highest hp)

end Curve

end FuzzyInference
