import FuzzyInference.Proofs.Curve.Exposed
import FuzzyInference.Proofs.Curve.Hull
import FuzzyInference.Proofs.Fallible

/-!
# Curves that only rise or only fall

In exact arithmetic a curve whose points never fall, or never rise, does so over
the whole axis: between its points, across its vertical steps and beyond its
ends.  Which of the two it does makes no difference to the argument, so it is
given once for an order of heights that goes either way.
-/

namespace FuzzyInference.Rational

open Scalar

variable {R : ℚ → ℚ → Prop} {c : Curve ℚ} {x y : ℚ} {p q : Point ℚ}

/-! ## Places -/

theorem place_cases (c : Curve ℚ) (x : ℚ) :
    x < c.lower ∨ c.upper < x ∨ (∃ p ∈ c.points, p.x = x) ∨
      ∃ s ∈ consecutive c.points, s.1.x < x ∧ x < s.2.x := by
  rcases lt_or_ge x c.lower with hbefore | hfirst
  · exact .inl hbefore
  rcases lt_or_ge c.upper x with hbeyond | hlast
  · exact .inr (.inl hbeyond)
  by_cases hpoint : ∃ p ∈ c.points, p.x = x
  · exact .inr (.inr (.inl hpoint))
  · have hapart : ∀ p ∈ c.points, p.x ≠ x := fun p hp hpx => hpoint ⟨p, hp, hpx⟩
    obtain ⟨s, hs, hstart, hstop⟩ := exists_consecutive_of_lost (P := fun p => p.x < x) c.ne_nil
      (lt_of_le_of_ne hfirst (hapart _ c.first_mem)) hlast.not_gt
    have hend := hapart _ (mem_of_mem_consecutive hs).2
    exact .inr (.inr (.inr ⟨s, hs, hstart, lt_of_le_of_ne (not_lt.1 hstop) hend.symm⟩))

theorem exists_top (hp : p ∈ c.points) :
    ∃ top ∈ c.points, top.x = p.x ∧ c.membership p.x = top.y := by
  obtain ⟨top, htop, htopx, hheight, -⟩ := ranks.membership_of_point hp not_false rfl
  exact ⟨top, htop, htopx, hheight⟩

theorem membership_partway {s : Point ℚ × Point ℚ} (hs : s ∈ consecutive c.points)
    (hstart : s.1.x < x) (hstop : x < s.2.x) : (c.membership x).value =
      s.1.y.value + (s.2.y.value - s.1.y.value) * ((x - s.1.x) / (s.2.x - s.1.x)) := by
  rw [membership_of_mem_segment hs hstart hstop]
  ring

/-! ## Directions -/

/-- An order of heights that a line from one height to the next one keeps. -/
structure Direction (R : ℚ → ℚ → Prop) : Prop where
  refl (a : ℚ) : R a a
  trans {a b d : ℚ} : R a b → R b d → R a d
  line {a b s t : ℚ} : R a b → s ≤ t → R (a + (b - a) * s) (a + (b - a) * t)

theorem upwards : Direction (· ≤ ·) where
  refl := le_refl
  trans := le_trans
  line hab hst := add_le_add_right (mul_le_mul_of_nonneg_left hst (sub_nonneg.2 hab)) _

theorem downwards : Direction (· ≥ ·) where
  refl := le_refl
  trans hab hbd := le_trans hbd hab
  line hab hst := add_le_add_right (mul_le_mul_of_nonpos_left hst (sub_nonpos.2 hab)) _

def Leads (R : ℚ → ℚ → Prop) (p q : Point ℚ) : Prop := p.x ≤ q.x ∧ R p.y.value q.y.value

structure Goes (R : ℚ → ℚ → Prop) (c : Curve ℚ) : Prop where
  direction : Direction R
  points : c.points.Pairwise (Leads R)

namespace Goes

theorem refl_leads (hR : Direction R) : Std.Refl (Leads R) :=
  ⟨fun p => ⟨le_rfl, hR.refl p.y.value⟩⟩

theorem isTrans_leads (hR : Direction R) : IsTrans (Point ℚ) (Leads R) :=
  ⟨fun _ _ _ hpq hqr => ⟨hpq.1.trans hqr.1, hR.trans hpq.2 hqr.2⟩⟩

theorem of_consecutive (hR : Direction R)
    (h : ∀ s ∈ consecutive c.points, R s.1.y.value s.2.y.value) : Goes R c := by
  have := isTrans_leads hR
  exact ⟨hR, pairwise_iff_consecutive.2 fun s hs => ⟨not_lt.1 (c.ascending s hs), h s hs⟩⟩

section Heights

variable (h : Goes R c)

include h

theorem rel_of_lt (hp : p ∈ c.points) (hq : q ∈ c.points) (hpq : p.x < q.x) :
    R p.y.value q.y.value := by
  let S (p q : Point ℚ) := Leads R p q ∨ Leads R q p
  have : Std.Symm S := ⟨fun _ _ => Or.symm⟩
  have hapart : p ≠ q := fun heq => hpq.ne (congrArg (fun p : Point ℚ => p.x) heq)
  rcases (h.points.imp (S := S) .inl).forall hp hq hapart with hle | hge
  · exact hle.2
  · exact absurd hge.1 hpq.not_ge

theorem first_rel (hp : p ∈ c.points) : R c.first.y.value p.y.value := by
  have := refl_leads h.direction
  exact (h.points.rel_head hp).2

theorem rel_last (hp : p ∈ c.points) : R p.y.value c.last.y.value := by
  have := refl_leads h.direction
  exact (h.points.rel_getLast hp).2

/-- On the way from one neighbour to the next the heights are in order. -/
theorem rel_within {s : Point ℚ × Point ℚ} (hs : s ∈ consecutive c.points) (hstart : s.1.x < x)
    (hxy : x ≤ y) (hstop : y < s.2.x) : R (c.membership x).value (c.membership y).value := by
  obtain ⟨hp, hq⟩ := mem_of_mem_consecutive hs
  have hwidth : s.1.x < s.2.x := hstart.trans (hxy.trans_lt hstop)
  rw [membership_partway hs hstart (hxy.trans_lt hstop),
    membership_partway hs (hstart.trans_le hxy) hstop]
  apply h.direction.line (h.rel_of_lt hp hq hwidth)
  exact div_le_div_of_nonneg_right (sub_le_sub_right hxy _) (sub_nonneg.2 hwidth.le)

theorem rel_between {s : Point ℚ × Point ℚ} (hs : s ∈ consecutive c.points) (hstart : s.1.x < x)
    (hstop : x < s.2.x) :
    R s.1.y.value (c.membership x).value ∧ R (c.membership x).value s.2.y.value := by
  obtain ⟨hp, hq⟩ := mem_of_mem_consecutive hs
  have hwidth : s.1.x < s.2.x := hstart.trans hstop
  have hrel := h.rel_of_lt hp hq hwidth
  have hpart0 : 0 ≤ (x - s.1.x) / (s.2.x - s.1.x) :=
    div_nonneg (sub_nonneg.2 hstart.le) (sub_nonneg.2 hwidth.le)
  have hpart1 : (x - s.1.x) / (s.2.x - s.1.x) ≤ 1 :=
    (div_le_one (sub_pos.2 hwidth)).2 (sub_le_sub_right hstop.le _)
  rw [membership_partway hs hstart hstop]
  constructor
  · simpa only [mul_zero, add_zero] using h.direction.line hrel hpart0
  · simpa only [Rat.mul_one, add_sub_cancel] using h.direction.line hrel hpart1

theorem point_rel (hp : p ∈ c.points) (hpx : p.x < x) : R p.y.value (c.membership x).value := by
  have := refl_leads h.direction
  rcases place_cases c x with hbefore | hbeyond | ⟨q, hq, rfl⟩ | ⟨s, hs, hstart, hstop⟩
  · exact absurd (mem_points c hp).1 (hpx.trans hbefore).not_ge
  · rw [ranks.membership_beyond not_false hbeyond]
    exact h.rel_last hp
  · obtain ⟨top, htop, htopx, hheight⟩ := exists_top hq
    rw [hheight]
    exact h.rel_of_lt hp htop (htopx ▸ hpx)
  · rcases rel_of_mem_consecutive h.points hs hp with hle | hge
    · exact h.direction.trans hle.2 (h.rel_between hs hstart hstop).1
    · exact absurd hge.1 (hpx.trans hstop).not_ge

theorem rel_point (hq : q ∈ c.points) (hxq : x < q.x) : R (c.membership x).value q.y.value := by
  have := refl_leads h.direction
  rcases place_cases c x with hbefore | hbeyond | ⟨p, hp, rfl⟩ | ⟨s, hs, hstart, hstop⟩
  · rw [ranks.membership_before not_false hbefore]
    exact h.first_rel hq
  · exact absurd (mem_points c hq).2 (hbeyond.trans hxq).not_ge
  · obtain ⟨top, htop, htopx, hheight⟩ := exists_top hp
    rw [hheight]
    exact h.rel_of_lt htop hq (htopx ▸ hxq)
  · rcases rel_of_mem_consecutive h.points hs hq with hle | hge
    · exact absurd hle.1 (hstart.trans hxq).not_ge
    · exact h.direction.trans (h.rel_between hs hstart hstop).2 hge.2

/-- A vertical step takes its height from either of its ends, and either way the
curve goes on in its direction. -/
theorem rel_of_point_between (hp : p ∈ c.points) (hxp : x ≤ p.x) (hpy : p.x ≤ y) :
    R (c.membership x).value (c.membership y).value := by
  obtain ⟨top, htop, htopx, hheight⟩ := exists_top hp
  have hbefore : R (c.membership x).value top.y.value := by
    rcases hxp.eq_or_lt with rfl | hlt
    · rw [hheight]
      exact h.direction.refl _
    · exact h.rel_point htop (htopx ▸ hlt)
  have hbeyond : R top.y.value (c.membership y).value := by
    rcases hpy.eq_or_lt with rfl | hlt
    · rw [hheight]
      exact h.direction.refl _
    · exact h.point_rel htop (htopx ▸ hlt)
  exact h.direction.trans hbefore hbeyond

/-- Over the whole axis the heights of the curve go the way of its points. -/
theorem rel_of_le (hxy : x ≤ y) : R (c.membership x).value (c.membership y).value := by
  rcases place_cases c x with hbefore | hbeyond | ⟨p, hp, rfl⟩ | ⟨s, hs, hstart, hstop⟩
  · rcases lt_or_ge y c.lower with hy | hy
    · rw [ranks.membership_before not_false hbefore, ranks.membership_before not_false hy]
      exact h.direction.refl _
    · exact h.rel_of_point_between c.first_mem hbefore.le hy
  · rw [ranks.membership_beyond not_false hbeyond,
      ranks.membership_beyond not_false (hbeyond.trans_le hxy)]
    exact h.direction.refl _
  · exact h.rel_of_point_between hp le_rfl hxy
  · rcases lt_or_ge y s.2.x with hy | hy
    · exact h.rel_within hs hstart hxy hy
    · exact h.rel_of_point_between (mem_of_mem_consecutive hs).2 hstop.le hy

end Heights

end Goes

/-! ## Points and curves -/

theorem rel_of_mem_consecutive_points (hascending : c.points.Pairwise fun p q => p.x < q.x)
    (h : ∀ x y, x ≤ y → R (c.membership x).value (c.membership y).value)
    {s : Point ℚ × Point ℚ} (hs : s ∈ consecutive c.points) : R s.1.y.value s.2.y.value := by
  obtain ⟨hp, hq⟩ := mem_of_mem_consecutive hs
  have hstep := h s.1.x s.2.x (not_lt.1 (c.ascending s hs))
  rwa [membership_of_top hp fun r => le_of_pairwise hascending hp,
    membership_of_top hq fun r => le_of_pairwise hascending hq] at hstep

theorem isMonotonic_iff : c.isMonotonic = true ↔
    (∀ s ∈ consecutive c.points, s.1.y ≤ s.2.y) ∨ ∀ s ∈ consecutive c.points, s.2.y ≤ s.1.y := by
  simp only [Curve.isMonotonic, Bool.or_eq_true, List.all_eq_true, decide_eq_true_eq]

/-- In exact arithmetic a curve whose points never fall does not fall anywhere on
the axis, and one whose points never rise does not rise.  So a curve that is found
monotonic is, and where no step is vertical every monotone curve is found. -/
theorem isMonotonic_iff_membership (c : Curve ℚ) :
    ((∀ s ∈ consecutive c.points, s.1.y ≤ s.2.y) → Monotone fun x => (c.membership x).value) ∧
    ((∀ s ∈ consecutive c.points, s.2.y ≤ s.1.y) → Antitone fun x => (c.membership x).value) ∧
    (c.isMonotonic = true → (Monotone fun x => (c.membership x).value) ∨
      Antitone fun x => (c.membership x).value) ∧
    (c.points.Pairwise (fun p q => p.x < q.x) →
      ((Monotone fun x => (c.membership x).value) ∨ Antitone fun x => (c.membership x).value) →
        c.isMonotonic = true) := by
  have hrises (h : ∀ s ∈ consecutive c.points, s.1.y ≤ s.2.y) :
      Monotone fun x => (c.membership x).value :=
    fun _ _ => (Goes.of_consecutive upwards h).rel_of_le
  have hfalls (h : ∀ s ∈ consecutive c.points, s.2.y ≤ s.1.y) :
      Antitone fun x => (c.membership x).value :=
    fun _ _ => (Goes.of_consecutive downwards h).rel_of_le
  refine ⟨hrises, hfalls, fun h => (isMonotonic_iff.1 h).imp hrises hfalls, fun hascending h => ?_⟩
  refine isMonotonic_iff.2 (h.imp (fun hmono s hs => ?_) fun hanti s hs => ?_)
  · exact rel_of_mem_consecutive_points (R := (· ≤ ·)) hascending (fun _ _ hxy => hmono hxy) hs
  · exact rel_of_mem_consecutive_points (R := (· ≥ ·)) hascending (fun _ _ hxy => hanti hxy) hs

def curveThrough (coordinates : List (ℚ × ℚ)) : Except (Fault ℚ) (Curve ℚ) := do
  Curve.ofPoints (← coordinates.mapM fun xy => Point.ofCoordinates xy.1 xy.2)

theorem isMonotonic_iff_membership_of_slopes :
    (∃ c, curveThrough [(0, 1), (2, 1), (2, 1 / 4), (4, 0)] = .ok c ∧ c.isMonotonic = true ∧
      Antitone fun x => (c.membership x).value) ∧
    ∃ c, curveThrough [(0, 0), (1, 1 / 4), (3, 1)] = .ok c ∧ c.isMonotonic = true ∧
      Monotone fun x => (c.membership x).value := by
  have hfall : ((curveThrough [(0, 1), (2, 1), (2, 1 / 4), (4, 0)]).toOption.any fun c =>
      c.isMonotonic && decide (∀ s ∈ consecutive c.points, s.2.y ≤ s.1.y)) = true := by
    decide +kernel
  have hrise : ((curveThrough [(0, 0), (1, 1 / 4), (3, 1)]).toOption.any fun c =>
      decide (∀ s ∈ consecutive c.points, s.1.y ≤ s.2.y) &&
        decide (c.points.Pairwise fun p q => p.x < q.x)) = true := by
    decide +kernel
  obtain ⟨c, hc, hfall⟩ := (Option.any_eq_true _ _).1 hfall
  obtain ⟨d, hd, hrise⟩ := (Option.any_eq_true _ _).1 hrise
  rw [Bool.and_eq_true, decide_eq_true_eq] at hfall
  rw [Bool.and_eq_true, decide_eq_true_eq, decide_eq_true_eq] at hrise
  obtain ⟨-, hanti, -, -⟩ := isMonotonic_iff_membership c
  obtain ⟨hmono, -, -, hfound⟩ := isMonotonic_iff_membership d
  exact ⟨⟨c, Fallible.toOption_eq_some.1 hc, hfall.1, hanti hfall.2⟩,
    d, Fallible.toOption_eq_some.1 hd, hfound hrise.2 (.inl (hmono hrise.1)), hmono hrise.1⟩

end FuzzyInference.Rational
