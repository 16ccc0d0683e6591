import FuzzyInference.Crisp.Defuzzifier
import FuzzyInference.Proofs.Binary.Total
import FuzzyInference.Proofs.Crisp.Heights

/-!
# There is something to read off

Every method reads a number off every curve that rises above the axis and keeps
to the unit interval.  In double precision areas and moments may overflow, but
the heights cannot be added up to anything that is not finite.  So where there
is no center of gravity the heights have a mean, and where no segment reaches
half of the area the last position stands in for it.
-/

namespace FuzzyInference

open Scalar Binary

/-! ## Single readings -/

namespace Polyline

section Scan

variable {α : Type} [Scalar α] {curve : List (Corner α)} {target reached : α}

theorem exists_firstReaching? (hne : curve ≠ [])
    (h : target ≤ (curve.map Corner.y).foldl (· + ·) reached) :
    ∃ x, firstReaching? target reached curve = some x := by
  induction curve generalizing reached with
  | nil => exact absurd rfl hne
  | cons p rest ih =>
      unfold firstReaching?
      by_cases hle : target ≤ reached + p.y
      · exact ⟨p.x, if_pos hle⟩
      · have hrest : rest ≠ [] := by
          rintro rfl
          exact hle h
        rw [if_neg hle]
        exact ih hrest h

theorem exists_mean? {xs : List α} (hne : xs ≠ []) : ∃ x, mean? xs = some x := ⟨_, if_neg hne⟩

theorem exists_continuousBisector? (hne : curve ≠ []) (hhighest : highestPositions curve ≠ []) :
    ∃ x, continuousBisector? curve = some x := by
  dsimp only [continuousBisector?]
  split_ifs
  · exact exists_mean? hhighest
  · rw [List.getLast?_eq_some_getLast hne]
    cases split? (sum (segmentAreas curve) / two) 0 (consecutive curve) with
    | some x => exact ⟨x, rfl⟩
    | none => exact ⟨_, rfl⟩

end Scan

variable {curve : List (Corner Float)}

/-- Half of the heights is reached, although one sum starts from a negative zero
and the other from zero. -/
theorem exists_discreteBisector? (hne : curve ≠ []) (hunit : ∀ p ∈ curve, ∃ u, InUnit p.y u) :
    ∃ x, discreteBisector? curve = some x := by
  obtain ⟨t, hfold, ht0, -, -⟩ := exists_total (List.forall_mem_map.2 hunit) isValue_zero le_rfl
    (by norm_num)
  obtain ⟨half, hhalf, hle⟩ := (hfold (-0) isValue_neg_zero).half ht0
  exact exists_firstReaching? hne ((hhalf.le_iff (hfold 0 isValue_zero)).2 hle)

end Polyline

theorem exists_weightedMean? (weighted : List (Float × Float))
    (hpos : 0 < (weighted.map Prod.snd).foldl (· + ·) 0) :
    ∃ x, weightedMean? weighted = some x := by
  rw [List.foldl_map] at hpos
  exact ⟨_, if_pos hpos⟩

/-! ## Methods -/

open Polyline in
theorem Method.exists_read? (method : Method) (domain : Domain) {curve : List (Corner Float)}
    (hunit : ∀ p ∈ curve, ∃ u, InUnit p.y u) (hrises : ∃ p ∈ curve, ¬ (p.y == 0) = true) :
    ∃ v, method.read? domain curve = some v := by
  obtain ⟨p, hp, hpy⟩ := hrises
  have hne : curve ≠ [] := List.ne_nil_of_mem hp
  have hnumbers : ∀ y ∈ curve.map Corner.y, ¬ IsNaN y := by
    rw [List.forall_mem_map]
    intro p hp
    obtain ⟨u, hu⟩ := hunit p hp
    exact hu.isValue.not_isNaN
  have hhighest : highestPositions curve ≠ [] :=
    (rankedBy ranks hnumbers).highestPositions_ne_nil hne
  have hheights : ∃ x, weightedMean? (curve.map fun p => (p.x, p.y)) = some x := by
    apply exists_weightedMean?
    rw [List.map_map]
    exact foldl_add_pos (List.forall_mem_map.2 hunit) ⟨p.y, List.mem_map_of_mem hp, hpy⟩
  cases method with
  | centroid =>
      cases domain with
      | discrete => exact hheights
      | continuous =>
          rw [read?, centroid?]
          cases centerOfGravity? curve with
          | some x => exact ⟨x, rfl⟩
          -- without an area the heights stand in for it
          | none => exact hheights
  | bisector =>
      cases domain with
      | discrete => exact exists_discreteBisector? hne hunit
      | continuous => exact exists_continuousBisector? hne hhighest
  | meanOfMaximum => exact exists_mean? hhighest
  | largestOfMaximum => exact exists_greatest? hhighest
  | smallestOfMaximum => exact exists_least? hhighest

end FuzzyInference
