import FuzzyInference.Proofs.Binary.Same
import FuzzyInference.Proofs.Engine.Refusals

/-!
# Degrees stay in the unit interval

In double precision no operation on degrees leaves the unit interval by more
than the tolerance, and those that are not checked do not leave it at all.  So
every well-formed statement has a degree, and every rule fires with some
strength once the facts that it asks for are known.
-/

namespace FuzzyInference

open Scalar Binary Fallible

def InInterval (x : Float) : Prop := x.isFinite = true ∧ 0 ≤ x ∧ x ≤ 1

/-! ## Operations without a check -/

namespace Degree

theorem inInterval (a : Degree Float) : InInterval a.value := by
  obtain ⟨u, hu⟩ := a.exists_inUnit
  exact ⟨hu.isValue.isFinite, a.nonneg, a.le_one⟩

end Degree

theorem Binary.InUnit.inInterval {x : Float} {u : ℚ} (h : InUnit x u) : InInterval x :=
  ⟨h.isValue.isFinite, (isValue_zero.le_iff h.isValue).2 h.nonneg,
    (h.isValue.le_iff isValue_one).2 h.le_one⟩

namespace Degree

theorem inInterval_mul (a b : Degree Float) : InInterval (a.value * b.value) := by
  obtain ⟨u, hu⟩ := a.exists_inUnit
  obtain ⟨v, hv⟩ := b.exists_inUnit
  exact (hu.mul hv).inInterval

theorem inInterval_complement (a : Degree Float) : InInterval (1 - a.value) := by
  obtain ⟨u, hu⟩ := a.exists_inUnit
  exact hu.complement.inInterval

theorem value_mul (a b : Degree Float) : (a * b).value = a.value * b.value :=
  value_nearest (a.inInterval_mul b).2

theorem value_complement (a : Degree Float) : a.complement.value = 1 - a.value :=
  value_nearest a.inInterval_complement.2

end Degree

/-! ## Norms, statements and rules -/

/-- In double precision all norms give degrees of the unit interval, and so do
products and complements as they stand.  Hence every statement with well-formed
connectives has a degree, and so has every rule with each of its conditions on
facts that its premises ask for, whatever AND and OR mean. -/
theorem degrees_stay_in_interval :
    (∀ a b : Degree Float,
      (∀ norm : TNorm, ∃ d, norm.evaluate a b = .ok d ∧ InInterval d.value) ∧
      (∀ conorm : TConorm, ∃ d, conorm.evaluate a b = .ok d ∧ InInterval d.value) ∧
      ((a * b).value = a.value * b.value ∧ InInterval (a.value * b.value)) ∧
      (a.complement.value = 1 - a.value ∧ InInterval (1 - a.value))) ∧
    ∀ algebra : Algebra,
      (∀ clauses : List (Clause Float), Connective.WellFormed (clauses.map Clause.connective) →
        ∃ d, algebra.evaluate clauses = .ok d ∧ InInterval d.value) ∧
      ∀ (rule : Rule Float) (facts : Facts Float),
        (∀ t ∈ rule.premiseSubjects, t ∈ facts.labels) →
        (∀ c ∈ rule.conditions, ∃ d, c.evaluate facts algebra = .ok d ∧ InInterval d.value) ∧
        ∃ d, rule.firingStrength facts algebra = .ok d ∧ InInterval d.value := by
  refine ⟨fun a b => ⟨fun norm => ?_, fun conorm => ?_, ⟨a.value_mul b, a.inInterval_mul b⟩,
    a.value_complement, a.inInterval_complement⟩,
    fun algebra => ⟨fun clauses hclauses => ?_, fun rule facts hfacts => ⟨fun c hc => ?_, ?_⟩⟩⟩
  · obtain ⟨d, hd⟩ := norm.exists_evaluate a b
    exact ⟨d, hd, d.inInterval⟩
  · obtain ⟨d, hd⟩ := conorm.exists_evaluate a b
    exact ⟨d, hd, d.inInterval⟩
  · obtain ⟨d, hd⟩ := algebra.exists_evaluate hclauses
    exact ⟨d, hd, d.inInterval⟩
  · have hknown : ∀ t ∈ c.subjects, t ∈ facts.labels :=
      fun t ht => hfacts t (List.mem_flatMap.2 ⟨c, hc, ht⟩)
    obtain ⟨d, hd⟩ := c.exists_evaluate hknown algebra
    exact ⟨d, hd, d.inInterval⟩
  · obtain ⟨d, hd⟩ := rule.exists_firingStrength hfacts algebra
    exact ⟨d, hd, d.inInterval⟩

theorem degrees_of_coolRoom : ∃ engine : Engine Float, Engine.coolRoom = .ok engine ∧
    engine.rules.size = 2 ∧ ∀ algebra : Algebra, ∀ rule ∈ engine.rules.toList,
      ∃ d, rule.firingStrength engine.facts algebra = .ok d ∧ InInterval d.value := by
  have hrun : (Engine.coolRoom.toOption.map fun engine => (engine.rules.size,
      engine.rules.toList.all fun rule =>
        rule.premiseSubjects.all fun t => t ∈ engine.facts.labels)) = some (2, true) := by
    decide +kernel
  obtain ⟨engine, hengine, hknown⟩ := Option.map_eq_some_iff.1 hrun
  obtain ⟨hsize, hknown⟩ := Prod.mk.inj hknown
  simp only [List.all_eq_true, decide_eq_true_eq] at hknown
  exact ⟨engine, toOption_eq_some.1 hengine, hsize, fun algebra rule hrule =>
    ((degrees_stay_in_interval.2 algebra).2 rule engine.facts (hknown rule hrule)).2⟩

end FuzzyInference
