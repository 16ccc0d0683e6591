import FuzzyInference.Proofs.Binary.Extremes
import FuzzyInference.Proofs.Logic.Closure

/-!
# The order of degrees in double precision

A degree is a number, so two degrees have a smaller and a greater one, and no
rounding is done to find it or to multiply by 1.
-/

namespace FuzzyInference.Degree

open Scalar Binary

variable {a b : Degree Float}

theorem not_isNaN (a : Degree Float) : ¬ IsNaN a.value := ranks.not_nan_degree a

theorem le_iff_level : a ≤ b ↔ level a.value ≤ level b.value := ranks.degree_le_iff

instance : IsTrans (Degree Float) (· ≤ ·) := ⟨fun _ _ _ => ranks.degree_le_trans⟩

theorem isZero_iff_level : a.isZero = true ↔ level a.value = level 0 := ranks.isZero_iff

theorem level_min (a b : Degree Float) :
    level (min a b).value = min (level a.value) (level b.value) :=
  ranks.rank_min a b

theorem level_max (a b : Degree Float) :
    level (max a b).value = max (level a.value) (level b.value) :=
  ranks.rank_max a b

instance : Std.Associative (max : Degree Float → Degree Float → Degree Float) where
  assoc a b c := by
    simp only [ranks.max_eq]
    by_cases hab : level a.value < level b.value
    · rw [if_pos hab]
      by_cases hbc : level b.value < level c.value
      · rw [if_pos hbc, if_pos (hab.trans hbc)]
      · rw [if_neg hbc, if_pos hab]
    · rw [if_neg hab]
      by_cases hbc : level b.value < level c.value
      · rw [if_pos hbc]
      · rw [if_neg hbc, if_neg hab, if_neg ((not_lt.1 hbc).trans (not_lt.1 hab)).not_gt]

theorem mul_one (a : Degree Float) : a * 1 = a := by
  obtain ⟨u, hu⟩ := a.exists_inUnit
  have hproduct : a.value * 1 = a.value := hu.isValue.mul_one_eq
  apply Degree.ext
  change (nearest (a.value * 1)).value = a.value
  rw [hproduct, value_nearest ⟨a.nonneg, a.le_one⟩]

theorem isZero_of_le (h : a ≤ b) (hb : b.isZero = true) : a.isZero = true :=
  isZero_iff_level.2
    (le_antisymm (isZero_iff_level.1 hb ▸ le_iff_level.1 h) (ranks.rank_zero_le a))

end FuzzyInference.Degree
