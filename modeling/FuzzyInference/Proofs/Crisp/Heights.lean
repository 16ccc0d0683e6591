import FuzzyInference.Proofs.Crisp.Highest
import FuzzyInference.Proofs.Crisp.Merging

/-!
# How high a merged curve is

In double precision the height of a merged curve is the greatest of the clipped
heights of its sets, and a number of the unit interval.  Every peak of a set is
among the positions at which the curve is known, so the curve is flat only if
everything that is merged is.
-/

namespace FuzzyInference

open Scalar Binary Polyline

namespace Aggregate

variable {group : List (Activation Float)} {x y : Float}

theorem height_spec (group : List (Activation Float)) (x : Float) :
    height group x ∈ clippedHeights group x ∧
      ∀ h ∈ clippedHeights group x, level h ≤ level (height group x) :=
  greatest?_spec (not_isNaN_clippedHeights group x) rfl

theorem not_isNaN_height (group : List (Activation Float)) (x : Float) :
    ¬ IsNaN (height group x) :=
  not_isNaN_clippedHeights group x _ (height_spec group x).1

theorem level_height_le_one (group : List (Activation Float)) (x : Float) :
    level (height group x) ≤ level 1 := by
  have hle : ∀ y ∈ clippedHeights group x, level y ≤ level 1 := by
    rw [clippedHeights, List.forall_mem_cons, List.forall_mem_map]
    exact ⟨ranks.rank_le_one 0, fun a _ => ranks.rank_le_one (a.clipped x)⟩
  exact hle _ (height_spec group x).1

theorem level_height_congr {group : List (Activation Float)} {x y : Float} (hx : ¬ IsNaN x)
    (hy : ¬ IsNaN y) (h : level x = level y) : level (height group x) = level (height group y) :=
  Same.level_eq (height_same (interchangeable_of_mem_iff fun _ => Iff.rfl) hx
    (.inl ((beq_iff_level hx hy).2 h)))

theorem level_height_le
    (h : ∀ a ∈ group, a.set.membership x ≤ a.set.membership y) :
    level (height group x) ≤ level (height group y) := by
  obtain ⟨hmem, -⟩ := height_spec group x
  obtain ⟨-, hle⟩ := height_spec group y
  rw [clippedHeights, List.forall_mem_cons, List.forall_mem_map] at hle
  rcases List.mem_cons.1 hmem with hzero | hclipped
  · rw [hzero]
    exact hle.1
  · obtain ⟨a, ha, heq⟩ := List.mem_map.1 hclipped
    rw [← heq]
    refine le_trans ?_ (hle.2 a ha)
    rw [Activation.clipped, Activation.clipped, Degree.level_min, Degree.level_min]
    exact min_le_min_left _ (Degree.le_iff_level.1 (h a ha))

/-! ## The curve -/

variable {domain : Domain}

theorem exists_inUnit_height (group : List (Activation Float)) (x : Float) :
    ∃ u, InUnit (height group x) u := by
  rcases List.mem_cons.1 (height_spec group x).1 with hzero | hclipped
  · exact ⟨0, hzero ▸ InUnit.zero⟩
  · obtain ⟨a, -, heq⟩ := List.mem_map.1 hclipped
    exact heq ▸ (a.clipped x).exists_inUnit

theorem rankedBy_level (domain : Domain) (group : List (Activation Float)) :
    RankedBy level ((curve domain group).map Corner.y) := by
  apply rankedBy ranks
  unfold curve
  rw [List.forall_mem_map, List.forall_mem_map]
  exact fun x _ => not_isNaN_height group x

/-- Nothing of a set is left where it is not concluded or nothing belongs to it. -/
theorem isZero_clipped_iff {a : Activation Float} :
    (a.clipped x).isZero = true ↔
      a.strength.isZero = true ∨ (a.set.membership x).isZero = true :=
  ranks.isZero_min_iff

theorem height_beq_zero_iff :
    (height group x == 0) = true ↔ ∀ a ∈ group, (a.clipped x).isZero = true := by
  obtain ⟨hmem, hle⟩ := height_spec group x
  rw [beq_iff_level (not_isNaN_height group x) isValue_zero.not_isNaN]
  constructor
  · intro hzero a ha
    have hclipped := hle _ (List.mem_cons_of_mem _ (List.mem_map_of_mem ha))
    exact Degree.isZero_iff_level.2
      (le_antisymm (hclipped.trans_eq hzero) (ranks.rank_zero_le (a.clipped x)))
  · intro hall
    rcases List.mem_cons.1 hmem with hzero | hclipped
    · rw [hzero]
    · obtain ⟨a, ha, heq⟩ := List.mem_map.1 hclipped
      rw [← heq]
      exact Degree.isZero_iff_level.1 (hall a ha)

theorem exists_height_iff :
    (∃ p ∈ curve domain group, ¬ (p.y == 0) = true) ↔
      ∃ a ∈ group, ¬ (a.strength.isZero = true ∨ a.set.shape.highest.isZero = true) := by
  have hcurve : (∃ p ∈ curve domain group, ¬ (p.y == 0) = true) ↔
      ∃ x ∈ positions domain group, ¬ (height group x == 0) = true := by
    simp only [curve, List.mem_map, exists_exists_and_eq_and]
  rw [hcurve]
  constructor
  · rintro ⟨x, -, hrises⟩
    rw [height_beq_zero_iff] at hrises
    push Not at hrises
    obtain ⟨a, ha, hclipped⟩ := hrises
    refine ⟨a, ha, fun hzero => hclipped (isZero_clipped_iff.2 (hzero.imp_right fun hhighest => ?_))⟩
    exact Degree.isZero_of_le (ranks.membership_le_highest a.set.shape x) hhighest
  · rintro ⟨a, ha, hnonzero⟩
    obtain ⟨y, hy, hpeak⟩ := ranks.exists_peak a.set.shape
    obtain ⟨x, hx, hxy⟩ := exists_position (mem_known ha hy domain)
    refine ⟨x, hx, fun hzero => hnonzero ?_⟩
    refine (isZero_clipped_iff.1 (height_beq_zero_iff.1 hzero a ha)).imp_right fun hmembership => ?_
    exact Degree.isZero_of_le (hpeak x (not_isNaN_positions domain group x hx) hxy.symm) hmembership

end Aggregate

end FuzzyInference
