import FuzzyInference.Proofs.Crisp.Heights

/-!
# What a merged curve says of its sets

A merged curve is a table of the positions at which it is known and the heights
beside them.  In double precision the positions are numbers that ascend strictly
and miss none at which a set is defined, however many of them coincide or are
zeros of either sign.  Beside each stands the greatest degree to which anything
is concluded there.
-/

namespace FuzzyInference

open Scalar Binary Aggregate

variable {group : List (Activation Float)}

/-- At `x` the sets of a group, each cut off at its strength, are `y` high. -/
structure IsHeight (group : List (Activation Float)) (x y : Float) : Prop where
  nonneg : 0 ≤ y
  le_one : y ≤ 1
  attained : ∃ a ∈ group, (y == (min a.strength (a.set.membership x)).value) = true
  greatest : ∀ a ∈ group, (min a.strength (a.set.membership x)).value ≤ y

/-- Positions in strictly ascending order, those that define the sets of a group
among them, with the heights there.  Two zeros count as one number. -/
structure Tabulates (group : List (Activation Float)) (xs ys : List Float) : Prop where
  number : ∀ x ∈ xs, isNaN x = false
  ascending : xs.Pairwise (· < ·)
  defining : ∀ a ∈ group, ∀ x ∈ a.set.shape.positions, ∃ y ∈ xs, (y == x) = true
  heights : List.Forall₂ (IsHeight group) xs ys

namespace Aggregate

theorem exists_clipped_eq (hne : group ≠ []) (x : Float) :
    ∃ a ∈ group, level (height group x) = level (a.clipped x).value := by
  obtain ⟨hmem, hle⟩ := height_spec group x
  rcases List.mem_cons.1 hmem with hzero | hclipped
  · obtain ⟨a, ha⟩ := List.exists_mem_of_ne_nil group hne
    have hlow := hle _ (List.mem_cons_of_mem _ (List.mem_map_of_mem ha))
    rw [hzero] at hlow ⊢
    exact ⟨a, ha, le_antisymm (ranks.rank_zero_le (a.clipped x)) hlow⟩
  · obtain ⟨a, ha, heq⟩ := List.mem_map.1 hclipped
    exact ⟨a, ha, congrArg level heq.symm⟩

theorem isHeight_height (hne : group ≠ []) (x : Float) : IsHeight group x (height group x) := by
  have hnan := not_isNaN_height group x
  obtain ⟨u, hu⟩ := exists_inUnit_height group x
  obtain ⟨a, ha, heq⟩ := exists_clipped_eq hne x
  refine ⟨?_, ?_, ⟨a, ha, (beq_iff_level hnan (a.clipped x).not_isNaN).2 heq⟩, fun b hb => ?_⟩
  · exact (isValue_zero.le_iff hu.isValue).2 hu.nonneg
  · exact (hu.isValue.le_iff isValue_one).2 hu.le_one
  · have hle := (height_spec group x).2 _ (List.mem_cons_of_mem _ (List.mem_map_of_mem hb))
    exact (le_iff_level (b.clipped x).not_isNaN hnan).2 hle

/-- In double precision a merged curve tabulates its group, whichever kind of
sets it is merged from. -/
theorem curve_tabulates (hne : group ≠ []) (domain : Domain) :
    Tabulates group ((curve domain group).map Corner.x) ((curve domain group).map Corner.y) := by
  have hpositions : (curve domain group).map Corner.x = positions domain group := by
    rw [curve, List.map_map]
    exact List.map_id _
  have hheights : (curve domain group).map Corner.y =
      (positions domain group).map (height group) := by
    rw [curve, List.map_map]
    rfl
  have hnan := not_isNaN_positions domain group
  rw [hpositions, hheights]
  refine ⟨fun x hx => ?_, ?_, fun a ha x hx => ?_, ?_⟩
  · exact ranks.isNaN_eq (hnan x hx)
  · exact ranks.pairwise_sortedDistinct (not_isNaN_known domain group)
  · obtain ⟨y, hy, heq⟩ := exists_position (mem_known ha hx domain)
    exact ⟨y, hy, (beq_iff_level (hnan y hy) (ranks.not_nan_of_mem hx)).2 heq⟩
  · rw [List.forall₂_map_right_iff, List.forall₂_same]
    exact fun x _ => isHeight_height hne x

/-- Conclusions on two sets that meet at zero, each with a zero of its own sign,
and end at the least positive number.  The step between samples is lost there. -/
def narrowSets : Except (Fault Float) (List (Activation Float)) := do
  let tip ← Label.named "tip"
  let low ← FuzzySet.named "low" (← Shape.ofLeftEdge (-0) 5e-324 0 1)
  let high ← FuzzySet.named "high" (← Shape.ofRightEdge 0 5e-324 0 1)
  return [⟨tip, low, 1⟩, ⟨tip, high, ← Degree.ofScalar 0.5⟩]

/-- Where all samples coincide with a zero of either sign the table still ascends. -/
theorem curve_tabulates_of_narrowSets : ∃ group, narrowSets = .ok group ∧
    groupDomain? group = some .continuous ∧ group ≠ [] ∧
      Tabulates group ((curve .continuous group).map Corner.x)
        ((curve .continuous group).map Corner.y) := by
  have hrun : (narrowSets.toOption.any fun group =>
      groupDomain? group == some .continuous && group.length == 2) = true := by
    decide +kernel
  simp only [Option.any_eq_true, Bool.and_eq_true, Fallible.toOption_eq_some, beq_iff_eq] at hrun
  obtain ⟨group, hgroup, hdomain, hlength⟩ := hrun
  have hne : group ≠ [] := List.ne_nil_of_length_pos (hlength ▸ Nat.two_pos)
  exact ⟨group, hgroup, hdomain, hne, curve_tabulates hne .continuous⟩

end Aggregate

end FuzzyInference
