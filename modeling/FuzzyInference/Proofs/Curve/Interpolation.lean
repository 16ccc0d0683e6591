import FuzzyInference.Proofs.Binary.Extremes
import FuzzyInference.Proofs.Curve.Heights

/-!
# What is read off a polyline

In double precision the height at a number is found wherever the number lies: at
the ends, at the corners, however many of them share a place, and between two
neighbours, of which there is one pair only.  The quotient that is taken there
has a divisor other than zero, also where places are infinite.
-/

namespace FuzzyInference.Polyline

open Scalar Binary

variable {corners : List (Corner Float)} {x : Float}

private theorem not_isNaN_of_eq_false {a : Float} (h : isNaN a = false) : ¬ IsNaN a := by
  rw [← isNaN_eq_true_iff, h]
  exact Bool.false_ne_true

theorem ordered_of_ascending (hnumbers : ∀ p ∈ corners, isNaN p.x = false ∧ isNaN p.y = false)
    (hascending : ∀ s ∈ consecutive corners, s.1.x ≤ s.2.x) : Ordered IsNaN level corners where
  place p hp := not_isNaN_of_eq_false (hnumbers p hp).1
  height p hp := not_isNaN_of_eq_false (hnumbers p hp).2
  ascending :=
    have : IsTrans (Corner Float) fun p q => level p.x ≤ level q.x := ⟨fun _ _ _ => le_trans⟩
    pairwise_iff_consecutive.2 fun s hs =>
      have hle := hascending s hs
      (le_iff_level (not_isNaN_of_le hle).1 (not_isNaN_of_le hle).2).1 hle

/-- Of a polyline in double precision every height is what is said of it.  There
is none without corners.  Before the first corner and beyond the last it is that
of the end, at the place of corners the greatest of theirs, and anywhere else
that of the line between the neighbours around the place. -/
theorem height_interpolates
    (hnumbers : ∀ p ∈ corners, isNaN p.x = false ∧ isNaN p.y = false)
    (hascending : ∀ s ∈ consecutive corners, s.1.x ≤ s.2.x) (hx : isNaN x = false) :
    (height? x corners = none ↔ corners = []) ∧ ∀ hne : corners ≠ [],
      (x < (corners.head hne).x → height? x corners = some (corners.head hne).y) ∧
      ((corners.getLast hne).x < x → height? x corners = some (corners.getLast hne).y) ∧
      ((∃ p ∈ corners, (x == p.x) = true) →
        ∃ top ∈ corners, (x == top.x) = true ∧ height? x corners = some top.y ∧
          ∀ p ∈ corners, (x == p.x) = true → p.y ≤ top.y) ∧
      (¬ x < (corners.head hne).x → ¬ (corners.getLast hne).x < x →
        (∀ p ∈ corners, ¬ (x == p.x) = true) →
          ∃! i : ℕ, ∃ s : Corner Float × Corner Float,
            (consecutive corners)[i]? = some s ∧ s.1.x < x ∧ x < s.2.x) ∧
      ∀ s ∈ consecutive corners, s.1.x < x → x < s.2.x →
        ¬ (s.2.x - s.1.x == 0) = true ∧
          height? x corners =
            some (s.1.y + (x - s.1.x) * (s.2.y - s.1.y) / (s.2.x - s.1.x)) := by
  have hnan := not_isNaN_of_eq_false hx
  have hc := ordered_of_ascending hnumbers hascending
  have hbefore {p : Corner Float} (hp : p ∈ corners) : x < p.x ↔ level x < level p.x :=
    lt_iff_level hnan (hc.place p hp)
  have hbeyond {p : Corner Float} (hp : p ∈ corners) : p.x < x ↔ level p.x < level x :=
    lt_iff_level (hc.place p hp) hnan
  have hat {p : Corner Float} (hp : p ∈ corners) : (x == p.x) = true ↔ level p.x = level x :=
    (beq_iff_level hnan (hc.place p hp)).trans eq_comm
  have hwithin {s : Corner Float × Corner Float} (hs : s ∈ consecutive corners) :
      s.1.x < x ∧ x < s.2.x ↔ Within level x s :=
    and_congr (hbeyond (mem_of_mem_consecutive hs).1) (hbefore (mem_of_mem_consecutive hs).2)
  refine ⟨height?_eq_none_iff, fun hne => ⟨fun hlt => ?_, fun hlt => ?_, ?_, ?_, ?_⟩⟩
  · exact hc.height?_of_lt ranks hne hnan ((hbefore (List.head_mem hne)).1 hlt)
  · exact hc.height?_of_gt ranks hne hnan ((hbeyond (List.getLast_mem hne)).1 hlt)
  · rintro ⟨p, hp, hpx⟩
    obtain ⟨top, htop, htopx, hheight, hle⟩ :=
      hc.exists_height?_of_corner ranks hp hnan ((hat hp).1 hpx)
    refine ⟨top, htop, (hat htop).2 htopx, hheight, fun q hq hqx => ?_⟩
    exact (le_iff_level (hc.height q hq) (hc.height top htop)).2 (hle q hq ((hat hq).1 hqx))
  · intro hfirst hlast hnone
    rw [hbefore (List.head_mem hne), not_lt] at hfirst
    rw [hbeyond (List.getLast_mem hne), not_lt] at hlast
    obtain ⟨s, hs, hx⟩ := exists_within hne hfirst hlast fun p hp => mt (hat hp).2 (hnone p hp)
    obtain ⟨i, hi⟩ := List.mem_iff_getElem?.1 hs
    refine ⟨i, ⟨s, hi, (hwithin hs).2 hx⟩, ?_⟩
    rintro j ⟨t, hj, ht⟩
    exact hc.within_unique hj hi ((hwithin (List.mem_of_getElem? hj)).1 ht) hx
  · intro s hs hstart hstop
    obtain ⟨hstart', hstop'⟩ := (hwithin hs).1 ⟨hstart, hstop⟩
    obtain ⟨hp, hq⟩ := mem_of_mem_consecutive hs
    have hlt : s.1.x < s.2.x :=
      (lt_iff_level (hc.place _ hp) (hc.place _ hq)).2 (hstart'.trans hstop')
    exact ⟨sub_ne_zero_of_lt hlt, hc.height?_of_mem_segment ranks hs hnan hstart' hstop'⟩

def stepAndSlope : List (Corner Float) := [⟨0, 0⟩, ⟨2, 0⟩, ⟨2, 1⟩, ⟨2, 0.5⟩, ⟨4, 0.25⟩]

theorem height_interpolates_of_stepAndSlope :
    (∃ top ∈ stepAndSlope, ((2 : Float) == top.x) = true ∧ height? 2 stepAndSlope = some top.y ∧
      ∀ p ∈ stepAndSlope, ((2 : Float) == p.x) = true → p.y ≤ top.y) ∧
    (∃! i : ℕ, ∃ s : Corner Float × Corner Float,
      (consecutive stepAndSlope)[i]? = some s ∧ s.1.x < 3 ∧ 3 < s.2.x) ∧
    height? 3 stepAndSlope = some (0.5 + (3 - 2) * (0.25 - 0.5) / (4 - 2)) := by
  have hnumbers : ∀ p ∈ stepAndSlope, isNaN p.x = false ∧ isNaN p.y = false := by decide +kernel
  have hascending : ∀ s ∈ consecutive stepAndSlope, s.1.x ≤ s.2.x := by decide +kernel
  have hstep : isNaN (2 : Float) = false := by decide +kernel
  have hslope : isNaN (3 : Float) = false := by decide +kernel
  obtain ⟨-, hat⟩ := height_interpolates hnumbers hascending hstep
  obtain ⟨-, hwithin⟩ := height_interpolates hnumbers hascending hslope
  obtain ⟨-, -, -, hunique, hline⟩ := hwithin (List.cons_ne_nil _ _)
  refine ⟨(hat (List.cons_ne_nil _ _)).2.2.1 (by decide +kernel), ?_, ?_⟩
  · exact hunique (by decide +kernel) (by decide +kernel) (by decide +kernel)
  · exact (hline (⟨2, 0.5⟩, ⟨4, 0.25⟩) (by simp [stepAndSlope, consecutive]) (by decide +kernel)
      (by decide +kernel)).2

end FuzzyInference.Polyline
