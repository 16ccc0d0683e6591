import FuzzyInference.Proofs.Crisp.Hull
import FuzzyInference.Proofs.Engine.Noninterference

/-!
# Where the values of a run lie

In exact arithmetic the value of a subject is nowhere but between the ends of
the sets that the rules conclude for it, and so within the bounds of the
variables that declare them.
-/

namespace FuzzyInference

open Scalar Fallible Rational

/-! ## Hulls -/

structure IsHull (intervals : List (ℚ × ℚ)) (low high : ℚ) : Prop where
  least : IsLeast {x | ∃ i ∈ intervals, i.1 = x} low
  greatest : IsGreatest {x | ∃ i ∈ intervals, i.2 = x} high

namespace IsHull

variable {low high low' high' : ℚ}

theorem exists_of_ne_nil {intervals : List (ℚ × ℚ)} (hne : intervals ≠ []) :
    ∃ low high, IsHull intervals low high := by
  have hmap (f : ℚ × ℚ → ℚ) : intervals.map f ≠ [] := mt List.map_eq_nil_iff.1 hne
  obtain ⟨low, hlow⟩ := exists_least? (hmap Prod.fst)
  obtain ⟨high, hhigh⟩ := exists_greatest? (hmap Prod.snd)
  rw [least?_eq_some_iff, List.forall_mem_map] at hlow
  rw [greatest?_eq_some_iff, List.forall_mem_map] at hhigh
  refine ⟨low, high, ⟨List.mem_map.1 hlow.1, ?_⟩, ⟨List.mem_map.1 hhigh.1, ?_⟩⟩
  · rintro _ ⟨i, hi, rfl⟩
    exact hlow.2 i hi
  · rintro _ ⟨i, hi, rfl⟩
    exact hhigh.2 i hi

theorem encloses {intervals : List (ℚ × ℚ)} (h : IsHull intervals low high) {i : ℚ × ℚ}
    (hi : i ∈ intervals) : low ≤ i.1 ∧ i.2 ≤ high :=
  ⟨h.least.2 ⟨i, hi, rfl⟩, h.greatest.2 ⟨i, hi, rfl⟩⟩

theorem subset {β : Type} {l : List β} {f g : β → ℚ × ℚ} (h : IsHull (l.map f) low high)
    (h' : IsHull (l.map g) low' high')
    (hfg : ∀ b ∈ l, (g b).1 ≤ (f b).1 ∧ (f b).2 ≤ (g b).2) :
    Set.Icc low high ⊆ Set.Icc low' high' := by
  obtain ⟨i, hi, rfl⟩ := h.least.1
  obtain ⟨j, hj, rfl⟩ := h.greatest.1
  obtain ⟨b, hb, rfl⟩ := List.mem_map.1 hi
  obtain ⟨c, hc, rfl⟩ := List.mem_map.1 hj
  apply Set.Icc_subset_Icc
  · exact (h'.encloses (List.mem_map_of_mem hb)).1.trans (hfg b hb).1
  · exact (hfg c hc).2.trans (h'.encloses (List.mem_map_of_mem hc)).2

end IsHull

/-! ## Conclusions -/

namespace Conclusion

def ends (c : Conclusion ℚ) : ℚ × ℚ := (c.proposition.set.lower, c.proposition.set.upper)

def bounds (c : Conclusion ℚ) : ℚ × ℚ := (c.proposition.about.lower, c.proposition.about.upper)

theorem ends_within_bounds (c : Conclusion ℚ) :
    c.bounds.1 ≤ c.ends.1 ∧ c.ends.2 ≤ c.bounds.2 :=
  have h := c.proposition.about.within _ c.proposition.declared
  ⟨not_lt.1 h.1, not_lt.1 h.2⟩

end Conclusion

namespace Engine

variable {engine : Engine ℚ}

def conclusionsOn (engine : Engine ℚ) (s : Label) : List (Conclusion ℚ) :=
  engine.rules.toList.flatMap fun rule => rule.conclusionsOn s

theorem exists_conclusion {activations : List (Activation ℚ)}
    (h : engine.evaluateRules = .ok activations) {s : Label} {a : Activation ℚ}
    (ha : a ∈ activationsOn activations s) :
    ∃ c ∈ engine.conclusionsOn s, c.ends = (a.set.lower, a.set.upper) := by
  obtain ⟨hmem, rfl⟩ := mem_activationsOn.1 ha
  obtain ⟨rule, hrule, strength, -, hcontribution⟩ := (mem_activations h).1 hmem
  obtain ⟨c, hc, rfl⟩ := List.mem_map.1 hcontribution
  have hon : c ∈ rule.conclusionsOn c.subject :=
    List.mem_filter.2 ⟨hc, decide_eq_true rfl⟩
  exact ⟨c, List.mem_flatMap.2 ⟨rule, hrule, hon⟩, rfl⟩

/-- The value of a subject is in every hull of the sets concluded for it. -/
theorem value_mem_hull {outcomes : Outcomes ℚ} (h : engine.execute = .ok outcomes)
    {o : Outcome ℚ} (ho : o ∈ outcomes.toList) :
    engine.conclusionsOn o.subject ≠ [] ∧
      ∀ low high, IsHull ((engine.conclusionsOn o.subject).map Conclusion.ends) low high →
        o.value ∈ Set.Icc low high := by
  obtain ⟨activations, hrules, hall⟩ := execute_eq_ok_iff.1 h
  obtain ⟨s, hs, hdefuzzify⟩ := exists_mem_of_forall₂ hall.flip ho
  obtain rfl := defuzzify_subject hs hdefuzzify
  constructor
  · obtain ⟨a, ha⟩ := List.exists_mem_of_ne_nil _ (activationsOn_ne_nil hs)
    obtain ⟨c, hc, -⟩ := exists_conclusion hrules ha
    exact List.ne_nil_of_mem hc
  · intro low high hhull
    refine Enclosed.defuzzify_mem (fun a ha => ?_) hdefuzzify
    obtain ⟨c, hc, hends⟩ := exists_conclusion hrules ha
    have hmem : c.ends ∈ (engine.conclusionsOn o.subject).map Conclusion.ends :=
      List.mem_map_of_mem hc
    rw [hends] at hmem
    exact hhull.encloses hmem

end Engine

/-- In exact arithmetic the value of every subject of a run lies between the
least lower and the greatest upper end of the sets concluded for it, and so
between the least lower and the greatest upper bound declared for it.  Of a
group that any method accepts the smallest, the mean and the largest of the
highest positions can be read, and are in this order. -/
theorem values_within_sets :
    (∀ (engine : Engine ℚ) (outcomes : Outcomes ℚ), engine.execute = .ok outcomes →
      ∀ o ∈ outcomes.toList,
        (∃ low high, IsHull ((engine.conclusionsOn o.subject).map Conclusion.ends) low high ∧
          o.value ∈ Set.Icc low high) ∧
        ∃ lower upper, IsHull ((engine.conclusionsOn o.subject).map Conclusion.bounds) lower upper ∧
          o.value ∈ Set.Icc lower upper) ∧
    ∀ group : List (Activation ℚ), (∃ method o, Method.defuzzify method group = .ok o) →
      ∃ smallest mean largest,
        Method.smallestOfMaximum.defuzzify group = .ok smallest ∧
        Method.meanOfMaximum.defuzzify group = .ok mean ∧
        Method.largestOfMaximum.defuzzify group = .ok largest ∧
        smallest.value ≤ mean.value ∧ mean.value ≤ largest.value := by
  constructor
  · intro engine outcomes h o ho
    obtain ⟨hne, hvalue⟩ := Engine.value_mem_hull h ho
    have hmap (f : Conclusion ℚ → ℚ × ℚ) : (engine.conclusionsOn o.subject).map f ≠ [] :=
      mt List.map_eq_nil_iff.1 hne
    obtain ⟨low, high, hends⟩ := IsHull.exists_of_ne_nil (hmap Conclusion.ends)
    obtain ⟨lower, upper, hbounds⟩ := IsHull.exists_of_ne_nil (hmap Conclusion.bounds)
    have hsub := hends.subset hbounds fun c _ => c.ends_within_bounds
    exact ⟨⟨low, high, hends, hvalue low high hends⟩,
      lower, upper, hbounds, hsub (hvalue low high hends)⟩
  · rintro group ⟨method, o, ho⟩
    have hok : (Defuzzifier.merging method).defuzzify group = .ok o := ho
    obtain ⟨hsubject, domain, hdomain, hrises, -⟩ := Defuzzifier.merging_eq_ok_iff.1 hok
    exact ordered_of_rises hsubject hdomain hrises

def heatedRoom : Except (Fault ℚ) (Engine ℚ) := do
  let room ← Variable.declare "room" 0 40 [
    ← FuzzySet.named "cold" (← Shape.ofLeftEdge 10 25 0 1),
    ← FuzzySet.named "warm" (← Shape.ofRightEdge 15 30 0 1)]
  let heater ← Variable.declare "heater" 0 9 [
    ← FuzzySet.named "low" (← Shape.ofTriangle 1 2 5 0 1),
    ← FuzzySet.named "high" (← Shape.ofRightEdge 4 8 0 1)]
  let cold ← (Condition.when (← room.is "cold")).build
  let warm ← (Condition.when (← room.is "warm")).build
  let first ← Rule.ofClauses (← Label.named "first") [cold] [← Conclusion.ofState heater "high"]
  let second ← Rule.ofClauses (← Label.named "second") [warm] [← Conclusion.ofState heater "low"]
  let (_, rules) ← Rulebook.empty.add first
  let (_, rules) ← rules.add second
  let facts ← Facts.empty.add "room" 20
  return { (Engine.sugeno .standard : Engine ℚ) with facts, rules }

private theorem heatedRoom_runs : ∃ engine outcomes group,
    heatedRoom = .ok engine ∧ engine.execute = .ok outcomes ∧
      engine.evaluateRules = .ok group ∧ (∃ s, groupSubject group = .ok s) ∧
      groupDomain? group = some .continuous ∧
      (∃ a ∈ group, 2 ∈ a.set.shape.positions) ∧ Aggregate.height group 2 ≠ 0 := by
  have hrun : (heatedRoom.toOption.any fun engine =>
      engine.execute.toOption.isSome && engine.evaluateRules.toOption.any fun group =>
        (groupSubject group).toOption.isSome && groupDomain? group == some .continuous &&
          (group.any fun a => 2 ∈ a.set.shape.positions) &&
            Aggregate.height group 2 != 0) = true := by
    decide +kernel
  simp only [Option.any_eq_true, Bool.and_eq_true, toOption_eq_some, Option.isSome_iff_exists,
    List.any_eq_true, beq_iff_eq, bne_iff_ne, decide_eq_true_eq] at hrun
  obtain ⟨engine, hengine, ⟨outcomes, hexecute⟩, group, hgroup, ⟨⟨hs, hdomain⟩, ha⟩, hheight⟩ :=
    hrun
  exact ⟨engine, outcomes, group, hengine, hexecute, hgroup, hs, hdomain, ha, hheight⟩

theorem values_within_sets_of_heatedRoom : ∃ engine outcomes group,
    heatedRoom = .ok engine ∧ engine.execute = .ok outcomes ∧ engine.evaluateRules = .ok group ∧
      (∀ o ∈ outcomes.toList, ∃ low high,
        IsHull ((engine.conclusionsOn o.subject).map Conclusion.ends) low high ∧
          o.value ∈ Set.Icc low high) ∧
      ∃ smallest mean largest,
        Method.smallestOfMaximum.defuzzify group = .ok smallest ∧
        Method.meanOfMaximum.defuzzify group = .ok mean ∧
        Method.largestOfMaximum.defuzzify group = .ok largest ∧
        smallest.value ≤ mean.value ∧ mean.value ≤ largest.value := by
  obtain ⟨engine, outcomes, group, hengine, hexecute, hgroup, ⟨s, hs⟩, hdomain, ha, hheight⟩ :=
    heatedRoom_runs
  have hrises : ∃ p ∈ Aggregate.curve .continuous group, ¬ (p.y == 0) = true :=
    ⟨_, List.mem_map_of_mem (mem_positions_continuous.2 (.inl ha)), mt beq_iff_eq.1 hheight⟩
  obtain ⟨smallest, -, -, hsmallest, -⟩ := ordered_of_rises hs hdomain hrises
  exact ⟨engine, outcomes, group, hengine, hexecute, hgroup,
    fun o ho => (values_within_sets.1 engine outcomes hexecute o ho).1,
    values_within_sets.2 group ⟨_, _, hsmallest⟩⟩

end FuzzyInference
