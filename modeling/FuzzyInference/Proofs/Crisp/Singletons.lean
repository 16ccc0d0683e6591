import FuzzyInference.Proofs.Crisp.Bisection
import FuzzyInference.Proofs.Crisp.Hull
import Mathlib.Data.List.Dedup

/-!
# Groups of singletons

Singletons are merged into a curve that stands at their supports, as high at each
of them as the strongest conclusion there.  So in exact arithmetic the centroid
is a weighted average of the distinct supports, and nothing that is read off such
a curve depends on a singleton that was not concluded at all.
-/

namespace FuzzyInference.Rational

open Scalar Polyline Aggregate

variable {curve : List (Corner ℚ)} {group : List (Activation ℚ)} {a : Activation ℚ} {s : Label}
  {x : ℚ}

/-! ## Weights of zero -/

theorem sum_map_filter {β : Type} {l : List β} {keep : β → Bool} {f : β → ℚ}
    (h : ∀ b ∈ l, keep b = false → f b = 0) : ((l.filter keep).map f).sum = (l.map f).sum := by
  induction l with
  | nil => rfl
  | cons b l ih =>
      obtain ⟨hfirst, hrest⟩ := List.forall_mem_cons.1 h
      rw [List.map_cons, List.sum_cons, ← ih hrest]
      cases hkeep : keep b with
      | false => rw [List.filter_cons_of_neg (by simp [hkeep]), hfirst hkeep, zero_add]
      | true => rw [List.filter_cons_of_pos hkeep, List.map_cons, List.sum_cons]

theorem centroid?_discrete (hpos : 0 < (curve.map Corner.y).sum) : centroid? .discrete curve =
    some ((curve.map fun p => p.x * p.y).sum / (curve.map Corner.y).sum) := by
  rw [centroid?, weightedMean?_eq, List.map_map, List.map_map]
  exact if_pos hpos

def raised (curve : List (Corner ℚ)) : List (Corner ℚ) := curve.filter fun p => p.y != 0

theorem weight_raised (curve : List (Corner ℚ)) :
    ((raised curve).map Corner.y).sum = (curve.map Corner.y).sum :=
  sum_map_filter fun p _ hp => by simpa using hp

theorem moment_raised (curve : List (Corner ℚ)) :
    ((raised curve).map fun p => p.x * p.y).sum = (curve.map fun p => p.x * p.y).sum := by
  refine sum_map_filter fun p _ hp => ?_
  have hzero : p.y = 0 := by simpa using hp
  rw [hzero, mul_zero]

theorem raised_filter (curve : List (Corner ℚ)) (keep : Corner ℚ → Bool) :
    (raised curve).filter keep = raised (curve.filter keep) := by
  rw [raised, raised, List.filter_filter, List.filter_filter]
  simp only [Bool.and_comm]

theorem HalvesWeight.of_raised {u : ℚ} (h : HalvesWeight (raised curve) u) :
    HalvesWeight curve u := by
  obtain ⟨⟨p, hp, hpu⟩, hbelow, hupTo⟩ := h
  rw [weightBelow, raised_filter, weight_raised, weight_raised] at hbelow
  rw [weightUpTo, raised_filter, weight_raised, weight_raised] at hupTo
  exact ⟨⟨p, List.mem_of_mem_filter hp, hpu⟩, hbelow, hupTo⟩

namespace OverAxis

variable (h : OverAxis curve) (hrises : ∃ p ∈ curve, ¬ (p.y == 0) = true)

include h

theorem overAxis_raised : OverAxis (raised curve) :=
  ⟨h.ascending.filter _, fun p hp => h.nonneg p (List.mem_of_mem_filter hp)⟩

include hrises

theorem highestPositions_raised :
    highestPositions (raised curve) = highestPositions curve := by
  obtain ⟨p, hp, hy⟩ := hrises
  have hne : curve.map Corner.y ≠ [] := List.ne_nil_of_mem (List.mem_map_of_mem hp)
  obtain ⟨top, htop⟩ := exists_greatest? hne
  obtain ⟨hmem, hle⟩ := greatest?_eq_some_iff.1 htop
  obtain ⟨q, hq, rfl⟩ := List.mem_map.1 hmem
  have hnonzero : q.y ≠ 0 := by
    intro hzero
    have hflat : p.y ≤ 0 := hzero ▸ hle _ (List.mem_map_of_mem hp)
    exact hy (beq_iff_eq.2 (le_antisymm hflat (h.nonneg p hp)))
  have htop' : greatest? ((raised curve).map Corner.y) = some q.y := by
    refine greatest?_eq_some_iff.2 ⟨List.mem_map_of_mem ?_, List.forall_mem_map.2 fun r hr => ?_⟩
    · exact List.mem_filter.2 ⟨hq, bne_iff_ne.2 hnonzero⟩
    · exact hle _ (List.mem_map_of_mem (List.mem_of_mem_filter hr))
  have hhighest : (raised curve).filter (fun r => r.y == q.y) =
      curve.filter fun r => r.y == q.y := by
    rw [raised, List.filter_filter]
    refine List.filter_congr fun r _ => Bool.and_eq_left_iff_imp.2 fun heq => ?_
    rw [beq_iff_eq.1 heq]
    exact bne_iff_ne.2 hnonzero
  rw [highestPositions, highestPositions, htop, htop']
  exact congrArg (List.map Corner.x) hhighest

/-- Nothing that is read off heights that stand alone depends on those of zero. -/
theorem exists_read?_raised (method : Method) : ∃ v, method.read? .discrete curve = some v ∧
    method.read? .discrete (raised curve) = some v := by
  have hpos := h.weight_pos hrises
  have hne : curve ≠ [] := by
    obtain ⟨p, hp, -⟩ := hrises
    exact List.ne_nil_of_mem hp
  have hhighest := h.highestPositions_raised hrises
  obtain ⟨smallest, mean, largest, hsmallest, hmean, hlargest, -⟩ := readings_ordered hne .discrete
  cases method with
  | centroid =>
      have hread := centroid?_discrete hpos
      have hraised := centroid?_discrete (hpos.trans_eq (weight_raised curve).symm)
      rw [weight_raised, moment_raised] at hraised
      exact ⟨_, hread, hraised⟩
  | bisector =>
      rw [← weight_raised] at hpos
      obtain ⟨u, hu, -⟩ := h.overAxis_raised.existsUnique_halvesWeight hpos
      exact ⟨u, h.discreteBisector?_of_halvesWeight hu.of_raised,
        h.overAxis_raised.discreteBisector?_of_halvesWeight hu⟩
  | meanOfMaximum => exact ⟨mean, hmean, (congrArg mean? hhighest).trans hmean⟩
  | largestOfMaximum => exact ⟨largest, hlargest, (congrArg greatest? hhighest).trans hlargest⟩
  | smallestOfMaximum =>
      exact ⟨smallest, hsmallest, (congrArg least? hhighest).trans hsmallest⟩

end OverAxis

/-! ## Merged curves -/

def fired (group : List (Activation ℚ)) : List (Activation ℚ) :=
  group.filter fun a => !a.strength.isZero

theorem mem_fired : a ∈ fired group ↔ a ∈ group ∧ a.strength.value ≠ 0 := by
  rw [fired, List.mem_filter, Bool.not_eq_true', ← Bool.not_eq_true, isZero_iff]

theorem height_spec (group : List (Activation ℚ)) (x : ℚ) :
    IsGreatest {y | y = 0 ∨ ∃ a ∈ group, (a.clipped x).value = y} (height group x) := by
  have hgreatest : greatest? (0 :: group.map fun a => (a.clipped x).value) =
      some (height group x) := rfl
  obtain ⟨hmem, hle⟩ := greatest?_eq_some_iff.1 hgreatest
  rw [List.mem_cons, List.mem_map] at hmem
  rw [List.forall_mem_cons, List.forall_mem_map] at hle
  refine ⟨hmem, ?_⟩
  rintro y (rfl | ⟨a, ha, rfl⟩)
  · exact hle.1
  · exact hle.2 a ha

/-- A merged curve is as high as if only what fired were merged. -/
theorem height_fired (group : List (Activation ℚ)) (x : ℚ) :
    height (fired group) x = height group x := by
  have hheights : {y | y = 0 ∨ ∃ a ∈ fired group, (a.clipped x).value = y} =
      {y | y = 0 ∨ ∃ a ∈ group, (a.clipped x).value = y} := by
    ext y
    constructor
    · rintro (rfl | ⟨a, ha, rfl⟩)
      · exact .inl rfl
      · exact .inr ⟨a, (mem_fired.1 ha).1, rfl⟩
    · rintro (rfl | ⟨a, ha, rfl⟩)
      · exact .inl rfl
      · by_cases hzero : a.strength.value = 0
        · left
          rw [Activation.clipped, value_min, hzero, min_eq_left (a.set.membership x).nonneg]
        · exact .inr ⟨a, mem_fired.2 ⟨ha, hzero⟩, rfl⟩
  exact (hheights ▸ height_spec (fired group) x).unique (height_spec group x)

theorem clipped_singleton (ha : a.set.shape.isSingleton = true) (x : ℚ) :
    (a.clipped x).value = if a.set.centroid = x then a.strength.value else 0 := by
  rw [Activation.clipped, value_min, FuzzySet.membership, FuzzySet.centroid]
  cases hshape : a.set.shape with
  | graph kind c fits =>
      rw [hshape] at ha
      cases ha
  | singleton support =>
      by_cases hx : support.x = x
      · have hfull : ((Shape.singleton support).membership x).value = 1 := by
          rw [Shape.membership, hx, beq_self_eq_true]
          rfl
        rw [hfull, min_eq_left a.strength.le_one]
        exact (if_pos hx).symm
      · have hempty : ((Shape.singleton support).membership x).value = 0 := by
          rw [Shape.membership, beq_eq_false_iff_ne.2 (Ne.symm hx)]
          rfl
        rw [hempty, min_eq_right a.strength.nonneg]
        exact (if_neg hx).symm

theorem mem_positions_singleton (ha : a.set.shape.isSingleton = true) :
    x ∈ a.set.shape.positions ↔ a.set.centroid = x := by
  rw [FuzzySet.centroid]
  cases hshape : a.set.shape with
  | graph kind c fits =>
      rw [hshape] at ha
      cases ha
  | singleton support => exact List.mem_singleton.trans eq_comm

structure Singletons (s : Label) (group : List (Activation ℚ)) : Prop where
  subject : ∀ a ∈ group, a.subject = s
  single : ∀ a ∈ group, a.set.shape.isSingleton = true
  fires : ∃ a ∈ group, 0 < a.strength.value

theorem singletons_of_eq_ok (hsubject : groupSubject group = .ok s)
    (hdomain : groupDomain? group = some .discrete) : Singletons s group where
  subject := groupSubject_eq_ok hsubject
  single := by
    unfold groupDomain? at hdomain
    split_ifs at hdomain with hall
    · exact List.all_eq_true.1 hall
    · cases hdomain
  fires := by
    obtain ⟨a, ha, hnonzero⟩ := groupSubject_fires hsubject
    rw [isZero_iff] at hnonzero
    exact ⟨a, ha, lt_of_le_of_ne a.strength.nonneg (Ne.symm hnonzero)⟩

def supports (group : List (Activation ℚ)) : List ℚ := (group.map fun a => a.set.centroid).dedup

namespace Singletons

variable (h : Singletons s group)

include h

theorem singletons_fired : Singletons s (fired group) where
  subject a ha := h.subject a (mem_fired.1 ha).1
  single a ha := h.single a (mem_fired.1 ha).1
  fires := by
    obtain ⟨a, ha, hpos⟩ := h.fires
    exact ⟨a, mem_fired.2 ⟨ha, hpos.ne'⟩, hpos⟩

theorem groupSubject_eq : groupSubject group = .ok s := by
  obtain ⟨a, ha, hpos⟩ := h.fires
  rw [groupSubject_of_forall (List.ne_nil_of_mem ha) h.subject, if_neg]
  rw [List.all_eq_true]
  exact fun hzero => hpos.ne' (isZero_iff.1 (hzero a ha))

theorem groupDomain?_eq : groupDomain? group = some .discrete :=
  if_pos (List.all_eq_true.2 h.single)

theorem mem_positions_iff : x ∈ positions .discrete group ↔ ∃ a ∈ group, a.set.centroid = x := by
  rw [mem_positions_discrete]
  exact exists_congr fun a => and_congr_right fun ha => mem_positions_singleton (h.single a ha)

/-- At a support the merged curve is as high as the strongest conclusion there. -/
theorem isGreatest_height (hx : ∃ a ∈ group, a.set.centroid = x) :
    IsGreatest {y | ∃ a ∈ group, a.set.centroid = x ∧ a.strength.value = y} (height group x) := by
  obtain ⟨hmem, hle⟩ := height_spec group x
  have hstrength : ∀ a ∈ group, a.set.centroid = x → a.strength.value ≤ height group x := by
    intro a ha hax
    have hclipped := hle (.inr ⟨a, ha, rfl⟩)
    rwa [clipped_singleton (h.single a ha), if_pos hax] at hclipped
  refine ⟨?_, fun y ⟨a, ha, hax, hay⟩ => hay ▸ hstrength a ha hax⟩
  -- where the curve is on the axis every strength is zero
  by_cases hzero : height group x = 0
  · obtain ⟨a, ha, hax⟩ := hx
    refine ⟨a, ha, hax, le_antisymm (hstrength a ha hax) ?_⟩
    rw [hzero]
    exact a.strength.nonneg
  · obtain ⟨a, ha, hclipped⟩ := hmem.resolve_left hzero
    rw [clipped_singleton (h.single a ha)] at hclipped
    split_ifs at hclipped with hax
    · exact ⟨a, ha, hax, hclipped⟩
    · exact absurd hclipped.symm hzero

theorem rises : ∃ p ∈ Aggregate.curve .discrete group, ¬ (p.y == 0) = true := by
  obtain ⟨a, ha, hpos⟩ := h.fires
  have hx : ∃ b ∈ group, b.set.centroid = a.set.centroid := ⟨a, ha, rfl⟩
  refine ⟨_, List.mem_map_of_mem (h.mem_positions_iff.2 hx), ?_⟩
  rw [beq_iff_eq]
  exact (hpos.trans_le ((h.isGreatest_height hx).2 ⟨a, ha, rfl, rfl⟩)).ne'

theorem positions_fired : positions .discrete (fired group) =
    (positions .discrete group).filter fun x => height group x != 0 := by
  refine (pairwise_sortedDistinct _).eq_of_mem_iff ((pairwise_sortedDistinct _).filter _)
    fun x => ?_
  change x ∈ positions .discrete (fired group) ↔ x ∈ (positions .discrete group).filter _
  rw [List.mem_filter, h.mem_positions_iff, h.singletons_fired.mem_positions_iff, bne_iff_ne]
  constructor
  · rintro ⟨a, ha, hax⟩
    obtain ⟨ha, hnonzero⟩ := mem_fired.1 ha
    have hx : ∃ a ∈ group, a.set.centroid = x := ⟨a, ha, hax⟩
    have hpos : 0 < a.strength.value := lt_of_le_of_ne a.strength.nonneg (Ne.symm hnonzero)
    exact ⟨hx, (hpos.trans_le ((h.isGreatest_height hx).2 ⟨a, ha, hax, rfl⟩)).ne'⟩
  · rintro ⟨hx, hnonzero⟩
    obtain ⟨a, ha, hax, hstrength⟩ := (h.isGreatest_height hx).1
    exact ⟨a, mem_fired.2 ⟨ha, hstrength ▸ hnonzero⟩, hax⟩

/-- Merging what fired leaves out the supports at which nothing did. -/
theorem curve_fired :
    Aggregate.curve .discrete (fired group) = raised (Aggregate.curve .discrete group) := by
  rw [Aggregate.curve, Aggregate.curve, h.positions_fired, raised, List.filter_map,
    funext (height_fired group)]
  rfl

theorem supports_perm : (supports group).Perm (positions .discrete group) := by
  have hsupports : (supports group).Nodup := List.nodup_dedup _
  have hpositions : (positions .discrete group).Nodup :=
    (pairwise_sortedDistinct _).imp fun hlt => hlt.ne
  refine (List.perm_ext_iff_of_nodup hsupports hpositions).2 fun x => ?_
  rw [supports, List.mem_dedup, List.mem_map, h.mem_positions_iff]

/-! ## Values -/

theorem merging_eq_ok {method : Method} {v : ℚ}
    (hread : method.read? .discrete (Aggregate.curve .discrete group) = some v) :
    (Defuzzifier.merging method).defuzzify group = .ok ⟨s, v⟩ :=
  Defuzzifier.merging_eq_ok h.groupSubject_eq h.groupDomain?_eq h.rises hread

theorem centroid_eq : (Defuzzifier.merging .centroid).defuzzify group =
    .ok ⟨s, ((supports group).map fun x => x * height group x).sum /
      ((supports group).map (height group)).sum⟩ := by
  have hpos := (overAxis_curve .discrete group).weight_pos h.rises
  apply h.merging_eq_ok
  rw [Method.read?, centroid?_discrete hpos, Aggregate.curve, List.map_map, List.map_map,
    (h.supports_perm.map _).sum_eq, (h.supports_perm.map _).sum_eq]
  rfl

theorem strengths_pos : 0 < (group.map fun a => a.strength.value).sum := by
  obtain ⟨a, ha, hpos⟩ := h.fires
  have hnonneg : ∀ y ∈ group.map fun a => a.strength.value, 0 ≤ y :=
    List.forall_mem_map.2 fun a _ => a.strength.nonneg
  exact hpos.trans_le (List.single_le_sum hnonneg _ (List.mem_map_of_mem ha))

theorem weightedAverage_eq : Defuzzifier.weightedAverage.defuzzify group =
    .ok ⟨s, (group.map fun a => a.set.centroid * a.strength.value).sum /
      (group.map fun a => a.strength.value).sum⟩ := by
  have hmean : weightedMean? (group.map fun a => (a.set.centroid, a.strength.value)) =
      some ((group.map fun a => a.set.centroid * a.strength.value).sum /
        (group.map fun a => a.strength.value).sum) := by
    rw [weightedMean?_eq, List.map_map, List.map_map]
    exact if_pos h.strengths_pos
  rw [Defuzzifier.defuzzify_eq, h.groupSubject_eq]
  change Defuzzifier.weightedAverage.outcomeOn group s = _
  rw [Defuzzifier.outcomeOn, hmean]
  rfl

theorem weightedAverage_fired : Defuzzifier.weightedAverage.defuzzify (fired group) =
    Defuzzifier.weightedAverage.defuzzify group := by
  have hzero {a : Activation ℚ} (ha : (!a.strength.isZero) = false) : a.strength.value = 0 :=
    isZero_iff.1 (by simpa using ha)
  have hweight : ((fired group).map fun a => a.strength.value).sum =
      (group.map fun a => a.strength.value).sum :=
    sum_map_filter fun a _ => hzero
  have hmoment : ((fired group).map fun a => a.set.centroid * a.strength.value).sum =
      (group.map fun a => a.set.centroid * a.strength.value).sum :=
    sum_map_filter fun a _ ha => by rw [hzero ha, mul_zero]
  rw [h.weightedAverage_eq, h.singletons_fired.weightedAverage_eq, hweight, hmoment]

theorem height_of_nodup (hnodup : (group.map fun a => a.set.centroid).Nodup) (ha : a ∈ group) :
    height group a.set.centroid = a.strength.value := by
  obtain ⟨b, hb, hcentroid, hstrength⟩ := (h.isGreatest_height ⟨a, ha, rfl⟩).1
  rw [← hstrength, List.inj_on_of_nodup_map hnodup hb ha hcentroid]

theorem centroid_eq_weightedAverage (hnodup : (group.map fun a => a.set.centroid).Nodup) :
    (Defuzzifier.merging .centroid).defuzzify group =
      Defuzzifier.weightedAverage.defuzzify group := by
  have hheights (f : ℚ → ℚ → ℚ) : ((supports group).map fun x => f x (height group x)) =
      group.map fun a => f a.set.centroid a.strength.value := by
    rw [supports, hnodup.dedup, List.map_map]
    exact List.map_congr_left fun a ha => congrArg (f a.set.centroid) (h.height_of_nodup hnodup ha)
  rw [h.centroid_eq, h.weightedAverage_eq, hheights fun x y => x * y, hheights fun _ y => y]

theorem exists_defuzzify_fired (d : Defuzzifier) : ∃ v, d.defuzzify group = .ok ⟨s, v⟩ ∧
    d.defuzzify (fired group) = .ok ⟨s, v⟩ := by
  cases d with
  | merging method =>
      obtain ⟨v, hread, hraised⟩ :=
        (overAxis_curve .discrete group).exists_read?_raised h.rises method
      rw [← h.curve_fired] at hraised
      exact ⟨v, h.merging_eq_ok hread, h.singletons_fired.merging_eq_ok hraised⟩
  | weightedAverage =>
      exact ⟨_, h.weightedAverage_eq, h.weightedAverage_fired.trans h.weightedAverage_eq⟩

end Singletons

/-- In exact arithmetic the centroid of singletons is the average of their distinct
supports, each of them weighted by the greatest strength that it is concluded with.
So where no support is shared it is the weighted average.  To neither of them nor
to the other methods does it matter if what was concluded with no strength at all
is left out. -/
theorem defuzzify_singletons (h : Singletons s group) :
    (∃ strongest : ℚ → ℚ,
      (∀ x ∈ supports group, IsGreatest
        {y | ∃ a ∈ group, a.set.centroid = x ∧ a.strength.value = y} (strongest x)) ∧
      (Defuzzifier.merging .centroid).defuzzify group =
        .ok ⟨s, ((supports group).map fun x => x * strongest x).sum /
          ((supports group).map strongest).sum⟩) ∧
    ((group.map fun a => a.set.centroid).Nodup →
      ∃ v, (Defuzzifier.merging .centroid).defuzzify group = .ok ⟨s, v⟩ ∧
        Defuzzifier.weightedAverage.defuzzify group = .ok ⟨s, v⟩) ∧
    ∀ d : Defuzzifier,
      ∃ v, d.defuzzify group = .ok ⟨s, v⟩ ∧ d.defuzzify (fired group) = .ok ⟨s, v⟩ := by
  refine ⟨⟨height group, fun x hx => ?_, h.centroid_eq⟩, fun hnodup => ?_, h.exists_defuzzify_fired⟩
  · rw [supports, List.mem_dedup, List.mem_map] at hx
    exact h.isGreatest_height hx
  · exact ⟨_, h.centroid_eq, (h.centroid_eq_weightedAverage hnodup).symm.trans h.centroid_eq⟩

theorem defuzzify_singletons_of_tips :
    (∃ s group, tipsAt [(2, 1 / 4), (6, 1 / 2), (2, 3 / 4), (9, 0)] = .ok group ∧
      (Defuzzifier.merging .centroid).defuzzify group = .ok ⟨s, 18 / 5⟩) ∧
    ∃ s group, tipsAt [(2, 1 / 4), (9, 0), (6, 1 / 2)] = .ok group ∧
      Defuzzifier.weightedAverage.defuzzify group = .ok ⟨s, 14 / 3⟩ ∧
      (Defuzzifier.merging .centroid).defuzzify group = .ok ⟨s, 14 / 3⟩ ∧
      (Defuzzifier.merging .bisector).defuzzify group =
        (Defuzzifier.merging .bisector).defuzzify (fired group) := by
  constructor
  · have hrun : ((tipsAt [(2, 1 / 4), (6, 1 / 2), (2, 3 / 4), (9, 0)]).toOption.any fun group =>
        (groupSubject group).toOption.isSome && groupDomain? group == some .discrete &&
          supports group == [6, 2, 9] && [((6 : ℚ), (1 / 2 : ℚ)), (2, 3 / 4), (9, 0)].all fun p =>
            (group.any fun a => a.set.centroid == p.1 && a.strength.value == p.2) &&
              group.all fun a => a.set.centroid != p.1 || decide (a.strength.value ≤ p.2)) =
                true := by
      decide +kernel
    simp only [Option.any_eq_true, Bool.and_eq_true, Fallible.toOption_eq_some,
      Option.isSome_iff_exists, beq_iff_eq] at hrun
    obtain ⟨group, hgroup, ⟨⟨⟨s, hs⟩, hdomain⟩, hsupports⟩, hweights⟩ := hrun
    simp only [List.all_eq_true, List.any_eq_true, Bool.and_eq_true, Bool.or_eq_true,
      beq_iff_eq, bne_iff_ne, decide_eq_true_eq] at hweights
    obtain ⟨⟨strongest, hstrongest, hvalue⟩, -⟩ :=
      defuzzify_singletons (singletons_of_eq_ok hs hdomain)
    rw [hsupports] at hstrongest hvalue
    have hweight (x w : ℚ) (hx : x ∈ [6, 2, 9])
        (hp : (x, w) ∈ [((6 : ℚ), (1 / 2 : ℚ)), (2, 3 / 4), (9, 0)]) : strongest x = w := by
      obtain ⟨hmem, hle⟩ := hweights (x, w) hp
      refine (hstrongest x hx).unique ⟨hmem, ?_⟩
      rintro y ⟨a, ha, hax, rfl⟩
      exact (hle a ha).resolve_left (not_not.2 hax)
    refine ⟨s, group, hgroup, hvalue.trans ?_⟩
    simp only [List.map_cons, List.map_nil, hweight 6 (1 / 2) (by simp) (by simp),
      hweight 2 (3 / 4) (by simp) (by simp), hweight 9 0 (by simp) (by simp)]
    norm_num
  · have hrun : ((tipsAt [(2, 1 / 4), (9, 0), (6, 1 / 2)]).toOption.any fun group =>
        (groupSubject group).toOption.isSome && groupDomain? group == some .discrete &&
          decide ((group.map fun a => a.set.centroid).Nodup) &&
            (Defuzzifier.weightedAverage.defuzzify group).toOption.any fun o => o.value == 14 / 3) =
              true := by
      decide +kernel
    simp only [Option.any_eq_true, Bool.and_eq_true, Fallible.toOption_eq_some,
      Option.isSome_iff_exists, beq_iff_eq, decide_eq_true_eq] at hrun
    obtain ⟨group, hgroup, ⟨⟨⟨s, hs⟩, hdomain⟩, hnodup⟩, o, ho, hvalue⟩ := hrun
    obtain ⟨-, hsame, hfired⟩ := defuzzify_singletons (singletons_of_eq_ok hs hdomain)
    obtain ⟨v, hcentroid, haverage⟩ := hsame hnodup
    obtain ⟨u, hbisector, hleft⟩ := hfired (.merging .bisector)
    obtain rfl : v = 14 / 3 := by
      rw [ho, Except.ok.injEq] at haverage
      rw [haverage] at hvalue
      exact hvalue
    exact ⟨s, group, hgroup, haverage, hcentroid, hbisector.trans hleft.symm⟩

end FuzzyInference.Rational
