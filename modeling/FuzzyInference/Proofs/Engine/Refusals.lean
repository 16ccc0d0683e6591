import FuzzyInference.Proofs.Engine.Subjects
import FuzzyInference.Proofs.Logic.Grouping

/-!
# Why a run is refused

A run in double precision is refused for the first fact that its rules ask for
and do not find, and else for the first group that has no value.
-/

namespace FuzzyInference

open Fallible

/-! ## Missing facts -/

section Missing

variable {α : Type} [Scalar α]

def Facts.firstMissing? (facts : Facts α) (labels : List Label) : Option Label :=
  labels.find? fun s => s ∉ facts.labels

theorem Facts.firstMissing?_flatMap {β : Type} (facts : Facts α) (f : β → List Label)
    (l : List β) : facts.firstMissing? (l.flatMap f) = l.findSome? fun b =>
      facts.firstMissing? (f b) :=
  List.find?_flatMap

theorem Facts.fault?_get (facts : Facts α) (s : Label) :
    fault? (facts.get s) = (facts.firstMissing? [s]).map .missingFact := by
  unfold Facts.get
  cases hfind : facts.find? s with
  | none =>
      have hmissing : s ∉ facts.labels := by
        simpa [find?, labels] using hfind
      simp [firstMissing?, hmissing]
  | some fact =>
      have hknown : s ∈ facts.labels := by
        have hlabel : fact.label = s := by simpa using List.find?_some hfind
        exact hlabel ▸ List.mem_map_of_mem (List.mem_of_find?_eq_some hfind)
      simp [firstMissing?, hknown]

theorem Facts.exists_get (facts : Facts α) {s : Label} (h : s ∈ facts.labels) :
    ∃ x, facts.get s = .ok x := by
  rw [← fault?_eq_none, facts.fault?_get, firstMissing?]
  simp [h]

theorem Proposition.fault?_evaluate (p : Proposition α) (facts : Facts α) :
    fault? (p.evaluate facts) = (facts.firstMissing? [p.subject]).map .missingFact := by
  rw [Proposition.evaluate, fault?_bind_pure, Facts.fault?_get]

theorem Premise.fault?_evaluate (p : Premise α) (facts : Facts α) :
    fault? (p.evaluate facts) = (facts.firstMissing? [p.proposition.subject]).map .missingFact := by
  rw [Premise.evaluate, fault?_bind_pure, Proposition.fault?_evaluate]

def Condition.subjects (c : Condition α) : List Label :=
  c.premises.map fun p => p.proposition.subject

def Rule.premiseSubjects (rule : Rule α) : List Label := rule.conditions.flatMap Condition.subjects

def Engine.premiseSubjects (engine : Engine α) : List Label :=
  engine.rules.toList.flatMap Rule.premiseSubjects

private theorem fault?_mapM_missing {β γ : Type} {facts : Facts α} {f : β → Except (Fault α) γ}
    {subjects : β → List Label}
    (hf : ∀ b, fault? (f b) = (facts.firstMissing? (subjects b)).map .missingFact)
    (l : List β) :
    fault? (l.mapM f) = (facts.firstMissing? (l.flatMap subjects)).map .missingFact := by
  rw [fault?_mapM, funext hf, Facts.firstMissing?_flatMap, List.map_findSome?]
  rfl

/-- Premises keep their connectives, so the statement that those of a condition
make up is well formed. -/
theorem Premise.map_connective {facts : Facts α} {premises : List (Premise α)}
    {clauses : List (Clause α)} (h : premises.mapM (fun p => p.evaluate facts) = .ok clauses) :
    clauses.map Clause.connective = premises.map Premise.connective := by
  apply map_eq_of_forall₂ (mapM_eq_ok_iff.1 h)
  intro p _ clause hclause
  rw [Premise.evaluate, bind_eq_ok] at hclause
  obtain ⟨degree, -, h⟩ := hclause
  cases h
  rfl

theorem Facts.firstMissing?_eq_none {facts : Facts α} {labels : List Label} :
    facts.firstMissing? labels = none ↔ ∀ t ∈ labels, t ∈ facts.labels := by
  simp [firstMissing?]

end Missing

/-! ## Rules whose norms are total -/

section Total

variable {α : Type} [Scalar α] [TotalNorms α]

theorem Condition.fault?_evaluate (c : Condition α) (facts : Facts α) (algebra : Algebra) :
    fault? (c.evaluate facts algebra) = (facts.firstMissing? c.subjects).map .missingFact := by
  rw [Condition.evaluate, fault?_bind, fault?_mapM_missing fun p => p.fault?_evaluate facts]
  · rw [Condition.subjects, List.map_eq_flatMap]
  · intro clauses hclauses
    have hconnectives := Premise.map_connective hclauses
    obtain ⟨d, hd⟩ := algebra.exists_evaluate (hconnectives ▸ c.wellFormed)
    exact ⟨_, bind_eq_ok.2 ⟨d, hd, rfl⟩⟩

theorem Condition.exists_evaluate (c : Condition α) {facts : Facts α}
    (h : ∀ t ∈ c.subjects, t ∈ facts.labels) (algebra : Algebra) :
    ∃ d, c.evaluate facts algebra = .ok d := by
  rw [← fault?_eq_none, c.fault?_evaluate, Facts.firstMissing?_eq_none.2 h, Option.map_none]

theorem Rule.fault?_firingStrength (rule : Rule α) (facts : Facts α) (algebra : Algebra) :
    fault? (rule.firingStrength facts algebra) =
      (facts.firstMissing? rule.premiseSubjects).map .missingFact := by
  rw [Rule.firingStrength, fault?_bind, fault?_mapM_missing]
  · rfl
  · intro c
    rw [fault?_bind_pure, c.fault?_evaluate]
  · intro clauses hclauses
    have hconnectives :
        clauses.map Clause.connective = rule.conditions.map Condition.connective := by
      apply map_eq_of_forall₂ (mapM_eq_ok_iff.1 hclauses)
      intro c _ clause hclause
      rw [bind_eq_ok] at hclause
      obtain ⟨degree, -, h⟩ := hclause
      cases h
      rfl
    exact algebra.exists_evaluate (hconnectives ▸ rule.wellFormed)

theorem Rule.exists_firingStrength (rule : Rule α) {facts : Facts α}
    (h : ∀ t ∈ rule.premiseSubjects, t ∈ facts.labels) (algebra : Algebra) :
    ∃ d, rule.firingStrength facts algebra = .ok d := by
  rw [← fault?_eq_none, rule.fault?_firingStrength, Facts.firstMissing?_eq_none.2 h,
    Option.map_none]

theorem Rule.fault?_evaluate (rule : Rule α) (facts : Facts α) (algebra : Algebra) :
    fault? (rule.evaluate facts algebra) =
      (facts.firstMissing? rule.premiseSubjects).map .missingFact := by
  rw [Rule.evaluate, fault?_bind_pure, rule.fault?_firingStrength]

theorem Engine.fault?_evaluateRules (engine : Engine α) :
    fault? engine.evaluateRules =
      (engine.facts.firstMissing? engine.premiseSubjects).map .missingFact := by
  rw [evaluateRules, fault?_bind_pure,
    fault?_mapM_missing fun rule => rule.fault?_evaluate engine.facts engine.algebra]
  rfl

end Total

/-! ## Runs -/

namespace Engine

theorem fault?_execute {α : Type} [Scalar α] {engine : Engine α}
    {activations : List (Activation α)} (h : engine.evaluateRules = .ok activations) :
    fault? engine.execute = (subjects activations).findSome? fun s =>
      fault? (engine.defuzzifier.defuzzify (activationsOn activations s)) := by
  rw [execute, h]
  change fault? ((groupBySubject activations).mapM _ >>=
    fun outcomes => pure (Outcomes.mk outcomes)) = _
  rw [fault?_bind_pure, groupBySubject_eq, List.mapM_map, fault?_mapM]
  rfl

theorem execute_of_missing {engine : Engine Float} {s : Label}
    (h : engine.facts.firstMissing? engine.premiseSubjects = some s) :
    engine.execute = .error (.missingFact s) := by
  have hrules := engine.fault?_evaluateRules
  rw [h, Option.map_some, fault?_eq_some] at hrules
  rw [execute, hrules]
  rfl

theorem exists_evaluateRules {engine : Engine Float}
    (h : engine.facts.firstMissing? engine.premiseSubjects = none) :
    ∃ activations, engine.evaluateRules = .ok activations := by
  rw [← fault?_eq_none, engine.fault?_evaluateRules, h, Option.map_none]

/-- Once the rules are evaluated, a run is refused for what is known of one of
its groups. -/
theorem fault_of_execute {α : Type} [Scalar α] {engine : Engine α}
    {activations : List (Activation α)} {fault : Fault α}
    (hrules : engine.evaluateRules = .ok activations) (h : engine.execute = .error fault) :
    ∃ s, fault = .nothingFired s ∨ fault = .mixedKinds s := by
  rw [← fault?_eq_some, fault?_execute hrules, List.findSome?_eq_some_iff] at h
  obtain ⟨before, s, after, hsubjects, hfault, -⟩ := h
  have hs : s ∈ subjects activations := by simp [hsubjects]
  exact ⟨s, Defuzzifier.fault_of_defuzzify (fault?_eq_some.1 hfault) (activationsOn_ne_nil hs)
    fun a ha => (mem_activationsOn.1 ha).2⟩

/-- A run is refused for a missing fact exactly if a premise asks for one, and
then for the first: no degree and no connective excuses it.  Where no fact is
missing, the rules can be evaluated, and the run is refused for the first group
that the defuzzifier refuses, if there is one.  There are no other reasons. -/
theorem execute_eq_error_iff (engine : Engine Float) :
    (∀ s, engine.execute = .error (.missingFact s) ↔
      (engine.premiseSubjects.find? fun s => s ∉ engine.facts.labels) = some s) ∧
    ((∀ s ∈ engine.premiseSubjects, s ∈ engine.facts.labels) →
      ∃ activations, engine.evaluateRules = .ok activations ∧
        ∀ fault, engine.execute = .error fault ↔
          ((subjects activations).findSome? fun s =>
            fault? (engine.defuzzifier.defuzzify (activationsOn activations s))) = some fault) ∧
    ∀ fault, engine.execute = .error fault →
      ∃ s, fault = .missingFact s ∨ fault = .nothingFired s ∨ fault = .mixedKinds s := by
  cases hmissing : engine.facts.firstMissing? engine.premiseSubjects with
  | some t =>
      have hexecute := execute_of_missing hmissing
      refine ⟨fun s => ?_, fun hknown => ?_, fun fault hfault => ?_⟩
      · rw [hexecute, ← Facts.firstMissing?, hmissing]
        simp
      · have ht := List.find?_some hmissing
        exact absurd (hknown t (List.mem_of_find?_eq_some hmissing)) (by simpa using ht)
      · rw [hexecute] at hfault
        cases hfault
        exact ⟨t, .inl rfl⟩
  | none =>
      obtain ⟨activations, hrules⟩ := exists_evaluateRules hmissing
      refine ⟨fun s => ?_, fun _ => ⟨activations, hrules, fun fault => ?_⟩, fun fault hfault => ?_⟩
      · rw [← Facts.firstMissing?, hmissing]
        constructor
        · intro hfault
          obtain ⟨t, ht⟩ := fault_of_execute hrules hfault
          rcases ht with ht | ht <;> cases ht
        · intro hnone
          cases hnone
      · rw [← fault?_eq_some, fault?_execute hrules]
      · obtain ⟨t, ht⟩ := fault_of_execute hrules hfault
        exact ⟨t, .inr ht⟩

end Engine

end FuzzyInference
