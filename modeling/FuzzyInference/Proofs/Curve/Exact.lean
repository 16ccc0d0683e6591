import FuzzyInference.Curve
import FuzzyInference.Proofs.Curve.Heights
import FuzzyInference.Proofs.Rational.Order
import Mathlib.Tactic.FieldSimp
import Mathlib.Tactic.Positivity
import Mathlib.Tactic.Ring

/-!
# Polylines in exact arithmetic

The rectangle and the triangle below a segment are the trapezoid below it, and
their moments are the moment of that.  So the area below a curve is the sum of
the areas that halve it, and its center of gravity the quotient of two sums.
-/

namespace FuzzyInference

namespace Rational

open Scalar Polyline

variable {p q : Corner ℚ} {x : ℚ}

/-! ## Heights -/

theorem height?_pair (hp : p.x < x) (hq : x ≤ q.x) :
    height? x [p, q] = some (p.y + (x - p.x) * (q.y - p.y) / (q.x - p.x)) := by
  have hwidth : q.x - p.x ≠ 0 := (sub_pos.2 (hp.trans_le hq)).ne'
  have hbetween : heightBetween x p q = p.y + (x - p.x) * (q.y - p.y) / (q.x - p.x) := by
    have hstart : (x == p.x) = false := beq_false_of_ne hp.ne'
    unfold heightBetween
    rw [hstart]
    by_cases hend : x = q.x
    · subst hend
      rw [mul_div_cancel_left₀ _ hwidth]
      simp
    · rw [beq_false_of_ne hend]
      simp
  have hheights : heightsAt x [p, q] = [heightBetween x p q] := by
    simp [heightsAt, consecutive, hp.le, hq]
  rw [height?, if_neg hp.not_gt, List.getLastD_cons, List.getLastD_nil, if_neg hq.not_gt, hheights,
    hbetween]
  rfl

/-! ## Areas -/

def segmentMoment (p q : Corner ℚ) : ℚ :=
  (q.x - p.x) * (p.y * (2 * p.x + q.x) + q.y * (p.x + 2 * q.x)) / 6

theorem addSegment_eq (total : Lamina ℚ) (p q : Corner ℚ) :
    addSegment total p q =
      ⟨total.area + segmentArea p q, total.moment + segmentMoment p q⟩ := by
  simp only [addSegment, segmentArea, segmentMoment, smaller_eq, magnitude_eq, two_eq, three_eq,
    beq_iff_eq, Lamina.mk.injEq]
  rcases lt_trichotomy p.y q.y with hlt | heq | hgt
  · rw [if_neg hlt.ne', if_neg hlt.ne', if_pos hlt, min_eq_left hlt.le,
      abs_of_pos (sub_pos.2 hlt)]
    constructor <;> ring
  · rw [if_pos heq.symm, if_pos heq.symm, heq, min_self]
    constructor <;> ring
  · rw [if_neg hgt.ne, if_neg hgt.ne, if_neg hgt.not_gt, min_eq_right hgt.le,
      abs_of_neg (sub_neg.2 hgt)]
    constructor <;> ring

theorem lamina_eq (corners : List (Corner ℚ)) :
    lamina corners =
      ⟨((consecutive corners).map fun s => segmentArea s.1 s.2).sum,
        ((consecutive corners).map fun s => segmentMoment s.1 s.2).sum⟩ := by
  have hfold (segments : List (Corner ℚ × Corner ℚ)) (total : Lamina ℚ) :
      segments.foldl (fun total s => addSegment total s.1 s.2) total =
        ⟨total.area + (segments.map fun s => segmentArea s.1 s.2).sum,
          total.moment + (segments.map fun s => segmentMoment s.1 s.2).sum⟩ := by
    induction segments generalizing total with
    | nil => simp
    | cons s segments ih =>
        rw [List.foldl_cons, ih, addSegment_eq, List.map_cons, List.map_cons, List.sum_cons,
          List.sum_cons, add_assoc, add_assoc]
  rw [lamina, hfold, zero_add, zero_add]

end Rational

end FuzzyInference
