import FuzzyInference.Proofs.Curve.Exposed

/-!
# Curves as sums of ramps

In exact arithmetic a curve whose points stand at positions of their own starts
at the height of the first and adds a ramp for each segment: as much as the
segment rises, to the extent that it has been passed.
-/

namespace FuzzyInference.Rational

open Scalar Polyline

variable {a b x : ℚ} {f : ℚ → ℚ} {p q : Corner ℚ} {rest : List (Corner ℚ)}

/-! ## Ramps -/

/-- How much of the way from `a` to `b` is behind at `x`. -/
def ramp (a b x : ℚ) : ℚ := max 0 (min 1 ((x - a) / (b - a)))

theorem ramp_of_le (hab : a < b) (hx : x ≤ a) : ramp a b x = 0 := by
  have hpart : (x - a) / (b - a) ≤ 0 :=
    div_nonpos_of_nonpos_of_nonneg (sub_nonpos.2 hx) (sub_nonneg.2 hab.le)
  exact max_eq_left ((min_le_right _ _).trans hpart)

theorem ramp_of_ge (hab : a < b) (hx : b ≤ x) : ramp a b x = 1 := by
  have hpart : 1 ≤ (x - a) / (b - a) :=
    (one_le_div (sub_pos.2 hab)).2 (sub_le_sub_right hx a)
  rw [ramp, min_eq_left hpart, max_eq_right zero_le_one]

theorem ramp_of_between (hab : a < b) (hax : a ≤ x) (hxb : x ≤ b) :
    ramp a b x = (x - a) / (b - a) := by
  have hwidth := sub_pos.2 hab
  rw [ramp, min_eq_right ((div_le_one hwidth).2 (sub_le_sub_right hxb a)),
    max_eq_right (div_nonneg (sub_nonneg.2 hax) hwidth.le)]

def ramps (corners : List (Corner ℚ)) (x : ℚ) : ℚ :=
  ((consecutive corners).map fun s => (s.2.y - s.1.y) * ramp s.1.x s.2.x x).sum

theorem ramps_singleton (p : Corner ℚ) (x : ℚ) : ramps [p] x = 0 := rfl

theorem ramps_cons_cons (p q : Corner ℚ) (rest : List (Corner ℚ)) (x : ℚ) :
    ramps (p :: q :: rest) x = (q.y - p.y) * ramp p.x q.x x + ramps (q :: rest) x := by
  rw [ramps, consecutive_cons_cons, List.map_cons, List.sum_cons, ramps]

theorem ramps_of_le (hascending : ∀ s ∈ consecutive (p :: rest), s.1.x < s.2.x) (hx : x ≤ p.x) :
    ramps (p :: rest) x = 0 := by
  induction rest generalizing p with
  | nil => rfl
  | cons q rest ih =>
      rw [consecutive_cons_cons] at hascending
      obtain ⟨hpq, hrest⟩ := List.forall_mem_cons.1 hascending
      rw [ramps_cons_cons, ramp_of_le hpq hx, ih hrest (hx.trans hpq.le), mul_zero, add_zero]

/-! ## Curves -/

theorem eq_add_ramp (h : Straight f p q) (hpx : p.x ≤ x) (hxq : x ≤ q.x) :
    f x = p.y + (q.y - p.y) * ramp p.x q.x x := by
  rcases hpx.eq_or_lt with rfl | hpx
  · rw [h.start, ramp_of_le h.lt le_rfl, mul_zero, add_zero]
  rcases hxq.eq_or_lt with rfl | hxq
  · rw [h.stop, ramp_of_ge h.lt le_rfl, Rat.mul_one, add_sub_cancel]
  · rw [h.between x hpx hxq, ramp_of_between h.lt hpx.le hxq.le]
    ring

/-- What is straight along a polyline, and flat after it, is a sum of ramps. -/
theorem eq_add_ramps {last : Corner ℚ}
    (hlast : (p :: rest).getLast (List.cons_ne_nil p rest) = last)
    (hstraight : ∀ s ∈ consecutive (p :: rest), Straight f s.1 s.2)
    (hbeyond : ∀ x, last.x ≤ x → f x = last.y) (hx : p.x ≤ x) :
    f x = p.y + ramps (p :: rest) x := by
  induction rest generalizing p with
  | nil =>
      obtain rfl : p = last := hlast
      rw [ramps_singleton, add_zero, hbeyond x hx]
  | cons q rest ih =>
      rw [List.getLast_cons_cons] at hlast
      rw [consecutive_cons_cons] at hstraight
      obtain ⟨hpq, hrest⟩ := List.forall_mem_cons.1 hstraight
      rw [ramps_cons_cons]
      rcases le_total x q.x with hle | hge
      · rw [ramps_of_le (fun s hs => (hrest s hs).lt) hle, add_zero, eq_add_ramp hpq hx hle]
      · rw [ih hlast hrest hge, ramp_of_ge hpq.lt hge]
        ring

theorem membership_eq_ramps {c : Curve ℚ} (h : c.points.Pairwise fun p q => p.x < q.x) (x : ℚ) :
    (c.membership x).value = c.first.y.value + ramps c.corners x := by
  have hcorners : c.corners.Pairwise fun p q => p.x < q.x := List.pairwise_map.2 h
  have : IsTrans (Corner ℚ) fun p q => p.x < q.x := ⟨fun _ _ _ => lt_trans⟩
  have hascending := pairwise_iff_consecutive.1 hcorners
  have hstraight : ∀ s ∈ consecutive c.corners,
      Straight (fun x => (c.membership x).value) s.1 s.2 := fun s hs =>
    ((exposed_of_pairwise h).straight hs).resolve_left (hascending s hs).ne
  have hbeyond : ∀ x, c.last.corner.x ≤ x → (c.membership x).value = c.last.corner.y := by
    intro x hx
    rcases hx.eq_or_lt with rfl | hlt
    · exact membership_of_top c.last_mem fun q hq => le_of_pairwise h c.last_mem hq
    · exact congrArg Degree.value (ranks.membership_beyond not_false hlt)
  obtain ⟨rest, hsplit⟩ : ∃ rest, c.corners = c.first.corner :: rest :=
    ⟨c.corners.tail, by rw [← c.head_corners, List.cons_head_tail]⟩
  have hlast := c.getLast_corners
  simp only [hsplit] at hascending hstraight hlast ⊢
  rcases lt_or_ge x c.first.x with hbefore | hge
  · have hheight : c.membership x = c.first.y := ranks.membership_before not_false hbefore
    rw [hheight, ramps_of_le hascending hbefore.le, add_zero]
  · exact eq_add_ramps hlast hstraight hbeyond hge

end FuzzyInference.Rational
