import FuzzyInference.Proofs.Crisp.Highest
import FuzzyInference.Proofs.Rational.Degree

/-!
# Readings in exact arithmetic

Means are quotients of sums, the highest positions are those of the corners that
no other overtops, and a merged curve is known at strictly ascending positions,
nowhere below the axis.
-/

namespace FuzzyInference.Rational

open Scalar Polyline

variable {x : ℚ} {xs : List ℚ} {curve : List (Corner ℚ)}

/-! ## Means -/

theorem weightedMean?_eq (weighted : List (ℚ × ℚ)) :
    weightedMean? weighted =
      if 0 < (weighted.map Prod.snd).sum then
        some ((weighted.map fun p => p.1 * p.2).sum / (weighted.map Prod.snd).sum)
      else none := by
  unfold weightedMean?
  rw [foldl_add_eq (fun p : ℚ × ℚ => p.1 * p.2), foldl_add_eq (fun p : ℚ × ℚ => p.2)]

theorem mean?_eq (xs : List ℚ) :
    mean? xs = if xs = [] then none else some (xs.sum / xs.length) := by
  rw [mean?, List.sum_eq_foldl]
  rfl

theorem mean?_eq_some_iff : mean? xs = some x ↔ xs ≠ [] ∧ xs.sum / xs.length = x := by
  rw [mean?_eq]
  split_ifs with hnil <;> simp [hnil]

/-! ## Where a curve is highest -/

theorem rankedBy_id (ys : List ℚ) : RankedBy id ys := rankedBy ranks fun _ _ => not_false

theorem mem_highestPositions :
    x ∈ highestPositions curve ↔ ∃ p ∈ curve, (∀ q ∈ curve, q.y ≤ p.y) ∧ p.x = x :=
  (rankedBy_id _).mem_highestPositions_iff

theorem highestPositions_ne_nil (hne : curve ≠ []) : highestPositions curve ≠ [] :=
  (rankedBy_id _).highestPositions_ne_nil hne

/-! ## Merged curves -/

variable {domain : Domain} {group : List (Activation ℚ)}

theorem pairwise_curve (domain : Domain) (group : List (Activation ℚ)) :
    (Aggregate.curve domain group).Pairwise fun p q => p.x < q.x :=
  List.pairwise_map.2 (pairwise_sortedDistinct _)

theorem mem_positions_discrete :
    x ∈ Aggregate.positions .discrete group ↔ ∃ a ∈ group, x ∈ a.set.shape.positions :=
  mem_sortedDistinct.trans List.mem_flatMap

theorem mem_positions_continuous :
    x ∈ Aggregate.positions .continuous group ↔
      (∃ a ∈ group, x ∈ a.set.shape.positions) ∨ x ∈ Aggregate.spread group := by
  rw [← List.mem_flatMap, ← List.mem_append]
  exact mem_sortedDistinct

theorem height_nonneg (group : List (Activation ℚ)) (x : ℚ) : 0 ≤ Aggregate.height group x := by
  have hfold (heights : List ℚ) (top : ℚ) (htop : 0 ≤ top) : 0 ≤ heights.foldl larger top := by
    induction heights generalizing top with
    | nil => exact htop
    | cons y heights ih =>
        apply ih
        rw [larger_eq]
        exact htop.trans (le_max_left top y)
  exact hfold _ 0 le_rfl

end FuzzyInference.Rational
