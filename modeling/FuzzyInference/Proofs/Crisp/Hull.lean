import FuzzyInference.Proofs.Crisp.Exact
import FuzzyInference.Proofs.Crisp.Groups
import FuzzyInference.Proofs.Curve.Hull

/-!
# Where the value of a group lies

In exact arithmetic every reading of a curve is between the ends of the curve.
So what a defuzzifier makes of a group lies between the ends of the sets in it,
and the readings of the highest positions are in the order of their names.
-/

namespace FuzzyInference.Rational

open Scalar Polyline Fallible

variable {low high target reached x : ℚ} {curve : List (Corner ℚ)}

/-! ## Readings -/

theorem weightedMean?_mem {weighted : List (ℚ × ℚ)}
    (hplaces : ∀ p ∈ weighted, p.1 ∈ Set.Icc low high) (hweights : ∀ p ∈ weighted, 0 ≤ p.2)
    (hx : weightedMean? weighted = some x) : x ∈ Set.Icc low high := by
  rw [weightedMean?_eq] at hx
  split_ifs at hx with hpos
  cases hx
  apply div_mem_Icc hpos
  · rw [← List.sum_map_mul_left]
    exact List.sum_le_sum fun p hp => mul_le_mul_of_nonneg_right (hplaces p hp).1 (hweights p hp)
  · rw [← List.sum_map_mul_left]
    exact List.sum_le_sum fun p hp => mul_le_mul_of_nonneg_right (hplaces p hp).2 (hweights p hp)

theorem firstReaching?_mem (hx : firstReaching? target reached curve = some x) :
    ∃ p ∈ curve, p.x = x := by
  induction curve generalizing reached with
  | nil => cases hx
  | cons p curve ih =>
      rw [firstReaching?] at hx
      split_ifs at hx
      · cases hx
        exact ⟨p, List.mem_cons_self, rfl⟩
      · obtain ⟨q, hq, hqx⟩ := ih hx
        exact ⟨q, List.mem_cons_of_mem _ hq, hqx⟩

/-- As long as the target is not reached, the segment in which it is has an
area, and its place there is a proper one. -/
theorem split?_mem {segments : List (Corner ℚ × Corner ℚ)} (hreached : reached < target)
    (hsegments : ∀ s ∈ segments, s.1.x ∈ Set.Icc low high ∧ s.2.x ∈ Set.Icc low high)
    (hx : split? target reached segments = some x) : x ∈ Set.Icc low high := by
  induction segments generalizing reached with
  | nil => cases hx
  | cons s segments ih =>
      obtain ⟨⟨hp, hq⟩, hrest⟩ := List.forall_mem_cons.1 hsegments
      rw [split?, add_sub_cancel_right] at hx
      split_ifs at hx with hle
      · rw [height?_pair hreached hle] at hx
        cases hx
        -- the place divides the segment as the target divides its area
        have harea : 0 < segmentArea s.1 s.2 := by linarith
        set part := (target - reached) / segmentArea s.1 s.2 with hpart
        have hpart0 : 0 ≤ part := div_nonneg (by linarith) harea.le
        have hpart1 : part ≤ 1 := (div_le_one harea).2 (by linarith)
        have hplace : s.1.x + (target - reached) * (s.2.x - s.1.x) /
            (reached + segmentArea s.1 s.2 - reached) = s.1.x + (s.2.x - s.1.x) * part := by
          rw [add_sub_cancel_left, hpart]
          ring
        rw [hplace]
        exact partway_mem_Icc hp hq hpart0 hpart1
      · exact ih (not_le.1 hle) hrest hx

namespace Confined

theorem highestPositions_mem (h : Confined low high curve) :
    ∀ x ∈ highestPositions curve, x ∈ Set.Icc low high := by
  intro x hx
  obtain ⟨p, hp, -, rfl⟩ := mem_highestPositions.1 hx
  exact h.within p hp

theorem mean?_mem (h : Confined low high curve) (hx : mean? (highestPositions curve) = some x) :
    x ∈ Set.Icc low high := by
  obtain ⟨hne, rfl⟩ := mean?_eq_some_iff.1 hx
  exact mean_mem_Icc hne h.highestPositions_mem

theorem discreteBisector?_mem (h : Confined low high curve)
    (hx : discreteBisector? curve = some x) : x ∈ Set.Icc low high := by
  obtain ⟨p, hp, rfl⟩ := firstReaching?_mem hx
  exact h.within p hp

theorem continuousBisector?_mem (h : Confined low high curve)
    (hx : continuousBisector? curve = some x) : x ∈ Set.Icc low high := by
  unfold continuousBisector? at hx
  dsimp only at hx
  split_ifs at hx with hhalf
  · exact h.mean?_mem hx
  · rcases Option.or_eq_some_iff.1 hx with hx | ⟨-, hx⟩
    · refine split?_mem (not_le.1 hhalf) (fun s hs => ?_) hx
      obtain ⟨hp, hq⟩ := mem_of_mem_consecutive hs
      exact ⟨h.within _ hp, h.within _ hq⟩
    · obtain ⟨p, hp, rfl⟩ := Option.map_eq_some_iff.1 hx
      exact h.within p (List.mem_of_getLast? hp)

theorem centroid?_mem (h : Confined low high curve) {domain : Domain}
    (hx : centroid? domain curve = some x) : x ∈ Set.Icc low high := by
  have hheights {x : ℚ} (hx : weightedMean? (curve.map fun p => (p.x, p.y)) = some x) :
      x ∈ Set.Icc low high :=
    weightedMean?_mem (List.forall_mem_map.2 h.within) (List.forall_mem_map.2 h.nonneg) hx
  cases domain with
  | discrete => exact hheights hx
  | continuous =>
      rcases Option.or_eq_some_iff.1 hx with hx | ⟨-, hx⟩
      · exact h.centerOfGravity?_mem hx
      · exact hheights hx

theorem read?_mem (h : Confined low high curve) {method : Method} {domain : Domain}
    (hx : method.read? domain curve = some x) : x ∈ Set.Icc low high := by
  cases method with
  | centroid => exact h.centroid?_mem hx
  | bisector =>
      cases domain with
      | discrete => exact h.discreteBisector?_mem hx
      | continuous => exact h.continuousBisector?_mem hx
  | meanOfMaximum => exact h.mean?_mem hx
  | largestOfMaximum => exact h.highestPositions_mem x (greatest?_eq_some_iff.1 hx).1
  | smallestOfMaximum => exact h.highestPositions_mem x (least?_eq_some_iff.1 hx).1

end Confined

/-! ## Merged curves -/

theorem evenlySpaced_mem {lower upper : ℚ} (hle : lower ≤ upper) {count : ℕ}
    (hx : x ∈ evenlySpaced lower upper count) : x ∈ Set.Icc lower upper := by
  obtain ⟨i, hi, rfl⟩ := List.mem_map.1 hx
  change lower + (if 1 < count then (upper - lower) / ((count - 1 : ℕ) : ℚ) else 0) * (i : ℚ) ∈ _
  split_ifs with hcount
  · -- the place is one between the ends, `i / (count - 1)` of the way
    have hgaps : (0 : ℚ) < ((count - 1 : ℕ) : ℚ) := Nat.cast_pos.2 (by omega)
    have hle' : (i : ℚ) ≤ ((count - 1 : ℕ) : ℚ) :=
      Nat.cast_le.2 (Nat.le_sub_one_of_lt (List.mem_range.1 hi))
    have hpart0 : 0 ≤ (i : ℚ) / ((count - 1 : ℕ) : ℚ) := by positivity
    have hpart1 : (i : ℚ) / ((count - 1 : ℕ) : ℚ) ≤ 1 := (div_le_one hgaps).2 hle'
    have hplace : lower + (upper - lower) / ((count - 1 : ℕ) : ℚ) * (i : ℚ) =
        lower + (upper - lower) * ((i : ℚ) / ((count - 1 : ℕ) : ℚ)) := by ring
    rw [hplace]
    exact partway_mem_Icc ⟨le_rfl, hle⟩ ⟨hle, le_rfl⟩ hpart0 hpart1
  · rw [zero_mul, add_zero]
    exact ⟨le_rfl, hle⟩

def Enclosed (low high : ℚ) (group : List (Activation ℚ)) : Prop :=
  ∀ a ∈ group, low ≤ a.set.lower ∧ a.set.upper ≤ high

namespace Enclosed

variable {group : List (Activation ℚ)} {domain : Domain}

theorem mem_defining (h : Enclosed low high group) {a : Activation ℚ} (ha : a ∈ group)
    (hx : x ∈ a.set.shape.positions) : x ∈ Set.Icc low high :=
  Set.Icc_subset_Icc (h a ha).1 (h a ha).2 (mem_positions a.set.shape hx)

theorem mem_spread (h : Enclosed low high group) (hx : x ∈ Aggregate.spread group) :
    x ∈ Set.Icc low high := by
  unfold Aggregate.spread at hx
  split at hx
  · next lower upper hlower hupper =>
      rw [least?_eq_some_iff, List.forall_mem_map] at hlower
      rw [greatest?_eq_some_iff, List.forall_mem_map] at hupper
      obtain ⟨a, ha, hal⟩ := List.mem_map.1 hlower.1
      obtain ⟨b, hb, hbu⟩ := List.mem_map.1 hupper.1
      have hends := shape_centroid_mem a.set.shape
      have hle : lower ≤ upper :=
        ((hlower.2 a ha).trans (hends.1.trans hends.2)).trans (hupper.2 a ha)
      exact Set.Icc_subset_Icc (hal ▸ (h a ha).1) (hbu ▸ (h b hb).2) (evenlySpaced_mem hle hx)
  · cases hx

theorem confined_curve (h : Enclosed low high group) (domain : Domain) :
    Confined low high (Aggregate.curve domain group) where
  ascending := (pairwise_curve domain group).imp fun hlt => hlt.le
  within := by
    unfold Aggregate.curve
    rw [List.forall_mem_map]
    intro x hx
    cases domain with
    | discrete =>
        obtain ⟨a, ha, hx⟩ := mem_positions_discrete.1 hx
        exact h.mem_defining ha hx
    | continuous =>
        rcases mem_positions_continuous.1 hx with ⟨a, ha, hx⟩ | hx
        · exact h.mem_defining ha hx
        · exact h.mem_spread hx
  nonneg := List.forall_mem_map.2 fun x _ => height_nonneg group x

theorem defuzzify_mem (h : Enclosed low high group) {d : Defuzzifier} {o : Outcome ℚ}
    (ho : d.defuzzify group = .ok o) : o.value ∈ Set.Icc low high := by
  cases d with
  | merging method =>
      obtain ⟨-, domain, -, -, hread⟩ := Defuzzifier.merging_eq_ok_iff.1 ho
      exact (h.confined_curve domain).read?_mem hread
  | weightedAverage =>
      rw [Defuzzifier.defuzzify_eq, bind_eq_ok] at ho
      obtain ⟨s, -, ho⟩ := ho
      rw [Defuzzifier.outcomeOn] at ho
      cases hmean : weightedMean? (group.map fun a => (a.set.centroid, a.strength.value)) with
      | none =>
          rw [hmean] at ho
          cases ho
      | some value =>
          rw [hmean] at ho
          cases ho
          refine weightedMean?_mem (List.forall_mem_map.2 fun a ha => ?_)
            (List.forall_mem_map.2 fun a _ => a.strength.nonneg) hmean
          exact Set.Icc_subset_Icc (h a ha).1 (h a ha).2 (shape_centroid_mem a.set.shape)

end Enclosed

/-! ## The highest positions in order -/

theorem readings_ordered (hne : curve ≠ []) (domain : Domain) :
    ∃ smallest mean largest,
      Method.smallestOfMaximum.read? domain curve = some smallest ∧
      Method.meanOfMaximum.read? domain curve = some mean ∧
      Method.largestOfMaximum.read? domain curve = some largest ∧
      smallest ≤ mean ∧ mean ≤ largest := by
  have hhighest := highestPositions_ne_nil hne
  obtain ⟨smallest, hsmallest⟩ := exists_least? hhighest
  obtain ⟨largest, hlargest⟩ := exists_greatest? hhighest
  have hmean : (highestPositions curve).sum / (highestPositions curve).length ∈
      Set.Icc smallest largest :=
    mean_mem_Icc hhighest fun x hx =>
      ⟨(least?_eq_some_iff.1 hsmallest).2 x hx, (greatest?_eq_some_iff.1 hlargest).2 x hx⟩
  exact ⟨smallest, _, largest, hsmallest, mean?_eq_some_iff.2 ⟨hhighest, rfl⟩, hlargest, hmean⟩

theorem ordered_of_rises {group : List (Activation ℚ)} {s : Label} {domain : Domain}
    (hsubject : groupSubject group = .ok s) (hdomain : groupDomain? group = some domain)
    (hrises : ∃ p ∈ Aggregate.curve domain group, ¬ (p.y == 0) = true) :
    ∃ smallest mean largest,
      Method.smallestOfMaximum.defuzzify group = .ok smallest ∧
      Method.meanOfMaximum.defuzzify group = .ok mean ∧
      Method.largestOfMaximum.defuzzify group = .ok largest ∧
      smallest.value ≤ mean.value ∧ mean.value ≤ largest.value := by
  have hne : Aggregate.curve domain group ≠ [] := by
    obtain ⟨p, hp, -⟩ := hrises
    exact List.ne_nil_of_mem hp
  obtain ⟨smallest, mean, largest, hsmallest, hmean, hlargest, hle⟩ := readings_ordered hne domain
  exact ⟨_, _, _, Defuzzifier.merging_eq_ok hsubject hdomain hrises hsmallest,
    Defuzzifier.merging_eq_ok hsubject hdomain hrises hmean,
    Defuzzifier.merging_eq_ok hsubject hdomain hrises hlargest, hle⟩

end FuzzyInference.Rational
