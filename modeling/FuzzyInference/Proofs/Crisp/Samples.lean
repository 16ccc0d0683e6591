import FuzzyInference.Proofs.Binary.Monotone
import FuzzyInference.Proofs.Crisp.Heights

/-!
# How far the samples of a merged curve reach

The positions that are spread over the sets of a group are calculated from the
least of them by steps that are rounded, and none is pinned to the greatest.  So
in double precision the last of them may lie beyond every set.  There the merged
curve keeps its height, and the greatest of its highest positions can be one
that no set reaches.  The smallest never is.
-/

namespace FuzzyInference

open Scalar Binary Polyline

/-- The least of the lower and the greatest of the upper ends of the sets. -/
structure Ends (group : List (Activation Float)) (lower upper : Float) : Prop where
  least : least? (group.map fun a => a.set.lower) = some lower
  greatest : greatest? (group.map fun a => a.set.upper) = some upper

namespace Aggregate

def sample (lower upper : Float) (i : ℕ) : Float :=
  lower + (upper - lower) / ofNat (sampleCount - 1) * ofNat i

def lastSample (lower upper : Float) : Float := sample lower upper (sampleCount - 1)

end Aggregate

namespace Ends

open Aggregate

variable {group : List (Activation Float)} {lower upper x : Float}

private theorem least_spec (h : Ends group lower upper) :
    (∃ a ∈ group, a.set.lower = lower) ∧ ∀ a ∈ group, level lower ≤ level a.set.lower := by
  have hnumbers : ∀ x ∈ group.map fun a => a.set.lower, ¬ IsNaN x := by
    rw [List.forall_mem_map]
    exact fun a _ => ranks.not_nan_of_mem a.set.shape.lower_mem
  obtain ⟨hmem, hle⟩ := least?_spec hnumbers h.least
  rw [List.forall_mem_map] at hle
  exact ⟨List.mem_map.1 hmem, hle⟩

private theorem greatest_spec (h : Ends group lower upper) :
    (∃ a ∈ group, a.set.upper = upper) ∧ ∀ a ∈ group, level a.set.upper ≤ level upper := by
  have hnumbers : ∀ x ∈ group.map fun a => a.set.upper, ¬ IsNaN x := by
    rw [List.forall_mem_map]
    exact fun a _ => ranks.not_nan_of_mem a.set.shape.upper_mem
  obtain ⟨hmem, hle⟩ := greatest?_spec hnumbers h.greatest
  rw [List.forall_mem_map] at hle
  exact ⟨List.mem_map.1 hmem, hle⟩

theorem exists_isValue (h : Ends group lower upper) :
    ∃ l u, IsValue lower l ∧ IsValue upper u ∧ 0 ≤ l ∧ l ≤ u := by
  obtain ⟨a, ha, hlower⟩ := h.least_spec.1
  obtain ⟨b, -, hupper⟩ := h.greatest_spec.1
  obtain ⟨l, hl, hl0⟩ := Shape.exists_isValue_of_mem a.set.shape.lower_mem
  obtain ⟨u, hu, -⟩ := Shape.exists_isValue_of_mem b.set.shape.upper_mem
  have hends := (ranks.position_between a.set.shape.lower_mem).2
  have hle : level a.set.lower ≤ level b.set.upper :=
    (hends.trans (h.greatest_spec.2 a ha)).trans_eq (congrArg level hupper.symm)
  rw [← hlower, ← hupper]
  refine ⟨l, u, hl, hu, hl0, (hl.le_iff hu).1 ?_⟩
  exact (le_iff_level hl.not_isNaN hu.not_isNaN).2 hle

/-! ## Samples -/

theorem samples_ascend (h : Ends group lower upper) :
    level (sample lower upper 0) = level lower ∧
      ∀ i j, i ≤ j → j < sampleCount → ¬ IsNaN (sample lower upper i) ∧
        level (sample lower upper i) ≤ level (sample lower upper j) := by
  obtain ⟨l, u, hl, hu, hl0, hle⟩ := h.exists_isValue
  have hone : 1 < sampleCount := by norm_num [sampleCount]
  obtain ⟨step, hstep, hstep0⟩ := exists_isValue_step hl hu hl0 (hl0.trans hle) hone
    (by norm_num [sampleCount])
  have hplace (i : ℕ) (hi : i < sampleCount) : IsValue (ofNat i) i :=
    isValue_ofNat (hi.trans (by norm_num [sampleCount]))
  constructor
  · have hzero := hstep.mul (hplace 0 (by norm_num [sampleCount]))
    rw [Nat.cast_zero, mul_zero, rounded_of_isDouble isValue_zero.isDouble] at hzero
    have hstart := hl.level_add (hzero (by simp [InRange]))
    rw [add_zero, rounded_of_isDouble hl.isDouble, stored_of_abs_lt hl.abs_lt] at hstart
    exact hstart.trans hl.level_eq.symm
  · intro i j hij hj
    have hi := hij.trans_lt hj
    have hproduct : level ((upper - lower) / ofNat (sampleCount - 1) * ofNat i) ≤
        level ((upper - lower) / ofNat (sampleCount - 1) * ofNat j) := by
      rw [hstep.level_mul (hplace i hi), hstep.level_mul (hplace j hj)]
      apply stored_mono (rounded_mono _)
      exact mul_le_mul_of_nonneg_left (Nat.cast_le.2 hij) (hstep0 hle)
    have hnan (k : ℕ) (hk : k < sampleCount) := hstep.not_isNaN_mul (hplace k hk)
    exact ⟨hl.not_isNaN_add (hnan i hi), hl.level_add_le (hnan i hi) (hnan j hj) hproduct⟩

theorem not_isNaN_lastSample (h : Ends group lower upper) : ¬ IsNaN (lastSample lower upper) :=
  (h.samples_ascend.2 _ _ le_rfl (by norm_num [sampleCount])).1

theorem spread_eq (h : Ends group lower upper) :
    spread group = (List.range sampleCount).map (sample lower upper) := by
  rw [spread, h.least, h.greatest]
  rfl

/-! ## Positions -/

theorem level_between (h : Ends group lower upper) {a : Activation Float} (ha : a ∈ group)
    (hx : x ∈ a.set.shape.positions) : level lower ≤ level x ∧ level x ≤ level upper :=
  ⟨(h.least_spec.2 a ha).trans (ranks.position_between hx).1,
    (ranks.position_between hx).2.trans (h.greatest_spec.2 a ha)⟩

theorem mem_positions (h : Ends group lower upper) (hx : x ∈ positions .continuous group) :
    level lower ≤ level x ∧
      (level x ≤ level upper ∨ level x ≤ level (lastSample lower upper)) := by
  rcases List.mem_append.1 (subset_sortedDistinct _ hx) with hx | hx
  · obtain ⟨a, ha, hx⟩ := List.mem_flatMap.1 hx
    exact ⟨(h.level_between ha hx).1, .inl (h.level_between ha hx).2⟩
  · rw [h.spread_eq] at hx
    obtain ⟨i, hi, rfl⟩ := List.mem_map.1 hx
    obtain ⟨hfirst, hascend⟩ := h.samples_ascend
    have hi := List.mem_range.1 hi
    refine ⟨hfirst.symm.trans_le (hascend 0 i (Nat.zero_le i) hi).2, .inr ?_⟩
    exact (hascend i _ (Nat.le_sub_one_of_lt hi) (by norm_num [sampleCount])).2

theorem exists_upper (h : Ends group lower upper) :
    ∃ x ∈ positions .continuous group, level x = level upper := by
  obtain ⟨a, ha, hupper⟩ := h.greatest_spec.1
  rw [← hupper]
  exact exists_position (mem_known ha a.set.shape.upper_mem .continuous)

theorem exists_lastSample (h : Ends group lower upper) :
    ∃ x ∈ positions .continuous group, level x = level (lastSample lower upper) := by
  refine exists_position (List.mem_append_right _ ?_)
  rw [h.spread_eq]
  exact List.mem_map_of_mem (List.mem_range.2 (by norm_num [sampleCount]))

/-! ## Heights -/

/-- Nowhere beyond the sets is the merged curve higher than at a position that is
not before their end. -/
theorem height_le_of_beyond (h : Ends group lower upper)
    (hdomain : groupDomain? group = some .continuous) {y : Float} (hx : ¬ IsNaN x)
    (hy : ¬ IsNaN y) (hbeyond : level upper < level x) (hupper : level upper ≤ level y) :
    level (height group x) ≤ level (height group y) := by
  apply level_height_le
  intro a ha
  have hend := h.greatest_spec.2 a ha
  exact ranks.membership_le_of_beyond (not_isSingleton_of_mem hdomain ha) hx hy
    (hend.trans_lt hbeyond) (hend.trans hupper)

end Ends

/-! ## The highest positions -/

namespace Aggregate

variable {group : List (Activation Float)} {domain : Domain} {x : Float}

theorem mem_highest_iff :
    x ∈ highestPositions (curve domain group) ↔ x ∈ positions domain group ∧
      ∀ y ∈ positions domain group, level (height group y) ≤ level (height group x) := by
  rw [(rankedBy_level domain group).mem_highestPositions_iff]
  unfold curve
  constructor
  · rintro ⟨p, hp, hall, rfl⟩
    obtain ⟨y, hy, rfl⟩ := List.mem_map.1 hp
    exact ⟨hy, List.forall_mem_map.1 hall⟩
  · rintro ⟨hx, hall⟩
    exact ⟨_, List.mem_map_of_mem hx, List.forall_mem_map.2 hall, rfl⟩

theorem not_isNaN_highest (hx : x ∈ highestPositions (curve domain group)) : ¬ IsNaN x :=
  not_isNaN_positions domain group x (mem_highest_iff.1 hx).1

end Aggregate

namespace Ends

open Aggregate

variable {group : List (Activation Float)} {lower upper x : Float}

theorem smallest_between (h : Ends group lower upper)
    (hdomain : groupDomain? group = some .continuous)
    (hx : least? (highestPositions (curve .continuous group)) = some x) :
    level lower ≤ level x ∧ level x ≤ level upper := by
  obtain ⟨hmem, hleast⟩ := least?_spec (fun y hy => not_isNaN_highest hy) hx
  obtain ⟨hposition, hhighest⟩ := mem_highest_iff.1 hmem
  refine ⟨(h.mem_positions hposition).1, not_lt.1 fun hbeyond => ?_⟩
  -- the end of the sets is no lower, and stands before what lies beyond it
  obtain ⟨y, hy, heq⟩ := h.exists_upper
  have hheight := h.height_le_of_beyond hdomain (not_isNaN_highest hmem)
    (not_isNaN_positions _ _ y hy) hbeyond heq.ge
  have hyhighest := mem_highest_iff.2 ⟨hy, fun z hz => (hhighest z hz).trans hheight⟩
  exact ((hleast y hyhighest).trans_eq heq).not_gt hbeyond

/-- The greatest of the highest positions is within the ends unless the last
sample is beyond them and as high as any. -/
theorem largest_between_iff (h : Ends group lower upper)
    (hdomain : groupDomain? group = some .continuous)
    (hx : greatest? (highestPositions (curve .continuous group)) = some x) :
    level lower ≤ level x ∧
      (level x ≤ level upper ↔ level (lastSample lower upper) ≤ level upper ∨
        ∃ y ∈ positions .continuous group,
          level (height group (lastSample lower upper)) < level (height group y)) := by
  obtain ⟨hmem, hgreatest⟩ := greatest?_spec (fun y hy => not_isNaN_highest hy) hx
  obtain ⟨hposition, hhighest⟩ := mem_highest_iff.1 hmem
  have hlast := h.not_isNaN_lastSample
  refine ⟨(h.mem_positions hposition).1, fun hle => ?_, fun hwithin => not_lt.1 fun hbeyond => ?_⟩
  · by_contra hneither
    rw [not_or, not_le] at hneither
    obtain ⟨hlastbeyond, hnone⟩ := hneither
    obtain ⟨y, hy, heq⟩ := h.exists_lastSample
    have hheight := h.height_le_of_beyond hdomain hlast (not_isNaN_positions _ _ y hy)
      hlastbeyond (hlastbeyond.trans_eq heq.symm).le
    -- the last sample would be among the highest positions
    have hyhighest := mem_highest_iff.2 ⟨hy, fun z hz =>
      (not_lt.1 fun hlt => hnone ⟨z, hz, hlt⟩).trans hheight⟩
    exact ((hgreatest y hyhighest).trans hle).not_gt (hlastbeyond.trans_eq heq.symm)
  · rcases hwithin with hwithin | ⟨y, hy, hlower⟩
    · rcases (h.mem_positions hposition).2 with hle | hle
      · exact hle.not_gt hbeyond
      · exact (hle.trans hwithin).not_gt hbeyond
    · have hlastbeyond : level upper < level (lastSample lower upper) := by
        rcases (h.mem_positions hposition).2 with hle | hle
        · exact absurd hbeyond hle.not_gt
        · exact hbeyond.trans_le hle
      have hheight := h.height_le_of_beyond hdomain (not_isNaN_highest hmem) hlast hbeyond
        hlastbeyond.le
      exact (hlower.trans_le (hhighest y hy)).not_ge hheight

end Ends

/-! ## Values -/

section Values

open Aggregate

variable {group : List (Activation Float)} {lower upper : Float}

theorem read?_of_defuzzify (hdomain : groupDomain? group = some .continuous) {method : Method}
    {o : Outcome Float} (ho : method.defuzzify group = .ok o) :
    method.read? .continuous (curve .continuous group) = some o.value := by
  have hok : (Defuzzifier.merging method).defuzzify group = .ok o := ho
  obtain ⟨-, domain, hdomain', -, hread⟩ := Defuzzifier.merging_eq_ok_iff.1 hok
  rw [hdomain] at hdomain'
  cases hdomain'
  exact hread

/-- In double precision no position of a merged curve is before the sets, and
none is beyond them unless the last sample is.  The smallest of the highest
positions is never beyond the sets.  The largest is only if the last sample is
and no position is higher. -/
theorem Ends.extremes_within (h : Ends group lower upper)
    (hdomain : groupDomain? group = some .continuous) :
    (∀ x ∈ positions .continuous group,
      lower ≤ x ∧ (x ≤ upper ∨ x ≤ lastSample lower upper)) ∧
    ((∀ x ∈ positions .continuous group, x ≤ upper) ↔ lastSample lower upper ≤ upper) ∧
    (∀ o, Method.smallestOfMaximum.defuzzify group = .ok o →
      lower ≤ o.value ∧ o.value ≤ upper) ∧
    ∀ o, Method.largestOfMaximum.defuzzify group = .ok o →
      lower ≤ o.value ∧ (o.value ≤ upper ↔ lastSample lower upper ≤ upper ∨
        ∃ x ∈ positions .continuous group,
          height group (lastSample lower upper) < height group x) := by
  obtain ⟨l, u, hl, hu, -⟩ := h.exists_isValue
  have hlast := h.not_isNaN_lastSample
  have hle {x y : Float} (hx : ¬ IsNaN x) (hy : ¬ IsNaN y) : x ≤ y ↔ level x ≤ level y :=
    Binary.le_iff_level hx hy
  refine ⟨fun x hx => ?_, ⟨fun hall => ?_, fun hwithin x hx => ?_⟩, fun o ho => ?_, fun o ho => ?_⟩
  · have hnan := not_isNaN_positions _ _ x hx
    rw [hle hl.not_isNaN hnan, hle hnan hu.not_isNaN, hle hnan hlast]
    exact h.mem_positions hx
  · obtain ⟨x, hx, heq⟩ := h.exists_lastSample
    have hxupper := hall x hx
    rw [hle (not_isNaN_positions _ _ x hx) hu.not_isNaN, heq] at hxupper
    exact (hle hlast hu.not_isNaN).2 hxupper
  · have hnan := not_isNaN_positions _ _ x hx
    rw [hle hlast hu.not_isNaN] at hwithin
    rw [hle hnan hu.not_isNaN]
    exact (h.mem_positions hx).2.elim id fun hxlast => hxlast.trans hwithin
  · have hvalue := read?_of_defuzzify hdomain ho
    have hnan := not_isNaN_highest (least?_spec (fun y hy => not_isNaN_highest hy) hvalue).1
    rw [hle hl.not_isNaN hnan, hle hnan hu.not_isNaN]
    exact h.smallest_between hdomain hvalue
  · have hvalue := read?_of_defuzzify hdomain ho
    have hnan := not_isNaN_highest (greatest?_spec (fun y hy => not_isNaN_highest hy) hvalue).1
    have hheights (x : Float) : height group (lastSample lower upper) < height group x ↔
        level (height group (lastSample lower upper)) < level (height group x) :=
      Binary.lt_iff_level (not_isNaN_height _ _) (not_isNaN_height _ _)
    simp only [hle hl.not_isNaN hnan, hle hnan hu.not_isNaN, hle hlast hu.not_isNaN, hheights]
    exact h.largest_between_iff hdomain hvalue

theorem exists_extremes {s : Label} {x : Float} (hsubject : groupSubject group = .ok s)
    (hdomain : groupDomain? group = some .continuous) (hx : x ∈ positions .continuous group)
    (hrises : ¬ (height group x == 0) = true) :
    (∃ o, Method.smallestOfMaximum.defuzzify group = .ok o) ∧
      ∃ o, Method.largestOfMaximum.defuzzify group = .ok o := by
  have hcurve : ∃ p ∈ curve .continuous group, ¬ (p.y == 0) = true :=
    ⟨_, List.mem_map_of_mem hx, hrises⟩
  have hhighest := (rankedBy_level .continuous group).highestPositions_ne_nil
    (List.ne_nil_of_mem (List.mem_map_of_mem hx))
  obtain ⟨smallest, hsmallest⟩ := exists_least? hhighest
  obtain ⟨largest, hlargest⟩ := exists_greatest? hhighest
  exact ⟨⟨_, Defuzzifier.merging_eq_ok hsubject hdomain hcurve hsmallest⟩,
    _, Defuzzifier.merging_eq_ok hsubject hdomain hcurve hlargest⟩

def risingTo (x : Float) : Except (Fault Float) (List (Activation Float)) := do
  let tip ← Label.named "tip"
  let high ← FuzzySet.named "high" (← Shape.ofRightEdge 0 x 0 1)
  return [⟨tip, high, 1⟩]

/-- What a set that rises to the given position comes to, where the last sample
is at the top of it. -/
private theorem exists_risingTo (x : Float) (beyond : Bool)
    (hrun : ((risingTo x).toOption.any fun group =>
      (groupSubject group).toOption.isSome && groupDomain? group == some .continuous &&
        (least? (group.map fun a => a.set.lower)).any fun lower =>
          (greatest? (group.map fun a => a.set.upper)).any fun upper =>
            decide (upper < lastSample lower upper) == beyond &&
              height group (lastSample lower upper) == 1) = true) :
    ∃ group lower upper o p, risingTo x = .ok group ∧ groupDomain? group = some .continuous ∧
      Ends group lower upper ∧ (upper < lastSample lower upper ↔ beyond = true) ∧
      level (height group (lastSample lower upper)) = level 1 ∧
      Method.smallestOfMaximum.defuzzify group = .ok o ∧
      Method.largestOfMaximum.defuzzify group = .ok p := by
  simp only [Option.any_eq_true, Bool.and_eq_true, Fallible.toOption_eq_some,
    Option.isSome_iff_exists, beq_iff_eq] at hrun
  obtain ⟨group, hgroup, ⟨⟨s, hs⟩, hdomain⟩, lower, hlower, upper, hupper, hlast, hheight⟩ := hrun
  have hends : Ends group lower upper := ⟨hlower, hupper⟩
  have hone : level (height group (lastSample lower upper)) = level 1 :=
    (beq_iff_level (not_isNaN_height _ _) isValue_one.not_isNaN).1 hheight
  obtain ⟨y, hy, heq⟩ := hends.exists_lastSample
  have hrises : ¬ (height group y == 0) = true := by
    rw [beq_iff_level (not_isNaN_height _ _) isValue_zero.not_isNaN,
      level_height_congr (not_isNaN_positions _ _ y hy) hends.not_isNaN_lastSample heq, hone,
      isValue_one.level_eq, isValue_zero.level_eq]
    simp
  obtain ⟨⟨o, ho⟩, p, hp⟩ := exists_extremes hs hdomain hy hrises
  exact ⟨group, lower, upper, o, p, hgroup, hdomain, hends, by rw [← hlast, decide_eq_true_iff],
    hone, ho, hp⟩

theorem extremes_within_rise : ∃ group lower upper o p, risingTo 4 = .ok group ∧
    groupDomain? group = some .continuous ∧ Ends group lower upper ∧
      Method.smallestOfMaximum.defuzzify group = .ok o ∧
      Method.largestOfMaximum.defuzzify group = .ok p ∧
      (∀ x ∈ positions .continuous group, x ≤ upper) ∧
      (lower ≤ o.value ∧ o.value ≤ upper) ∧ lower ≤ p.value ∧ p.value ≤ upper := by
  obtain ⟨group, lower, upper, o, p, hgroup, hdomain, hends, hlast, -, ho, hp⟩ :=
    exists_risingTo 4 false (by decide +kernel)
  obtain ⟨-, hpositions, hsmallest, hlargest⟩ := hends.extremes_within hdomain
  obtain ⟨-, u, -, hu, -⟩ := hends.exists_isValue
  have hwithin : lastSample lower upper ≤ upper := by
    rw [lt_iff_level hu.not_isNaN hends.not_isNaN_lastSample] at hlast
    rw [le_iff_level hends.not_isNaN_lastSample hu.not_isNaN, ← not_lt, hlast]
    exact Bool.false_ne_true
  exact ⟨group, lower, upper, o, p, hgroup, hdomain, hends, ho, hp, hpositions.2 hwithin,
    hsmallest o ho, (hlargest p hp).1, (hlargest p hp).2.2 (.inl hwithin)⟩

/-- A rise that ends at 3.97 is sampled beyond its end, and the largest of its
highest positions is there. -/
theorem extremes_beyond_rise : ∃ group lower upper o, risingTo 3.97 = .ok group ∧
    groupDomain? group = some .continuous ∧ Ends group lower upper ∧
      Method.largestOfMaximum.defuzzify group = .ok o ∧
      (∃ x ∈ positions .continuous group, upper < x) ∧ upper < o.value := by
  obtain ⟨group, lower, upper, -, o, hgroup, hdomain, hends, hlast, hone, -, ho⟩ :=
    exists_risingTo 3.97 true (by decide +kernel)
  obtain ⟨-, u, -, hu, -⟩ := hends.exists_isValue
  rw [lt_iff_level hu.not_isNaN hends.not_isNaN_lastSample, eq_self, iff_true] at hlast
  obtain ⟨x, hx, heq⟩ := hends.exists_lastSample
  have hvalue := read?_of_defuzzify hdomain ho
  have hnan := not_isNaN_highest (greatest?_spec (fun y hy => not_isNaN_highest hy) hvalue).1
  refine ⟨group, lower, upper, o, hgroup, hdomain, hends, ho, ⟨x, hx, ?_⟩, ?_⟩
  · exact (lt_iff_level hu.not_isNaN (not_isNaN_positions _ _ x hx)).2 (heq ▸ hlast)
  · rw [lt_iff_level hu.not_isNaN hnan, ← not_le, (hends.largest_between_iff hdomain hvalue).2,
      not_or, not_le]
    refine ⟨hlast, ?_⟩
    rintro ⟨y, -, hlt⟩
    exact (hlt.trans_le (level_height_le_one group y)).ne hone

end Values

end FuzzyInference
