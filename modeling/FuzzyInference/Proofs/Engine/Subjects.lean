import FuzzyInference.Engine
import FuzzyInference.Proofs.Crisp.Groups
import FuzzyInference.Scalar.Binary
import Mathlib.Data.List.Induction

/-!
# The subjects of a run

Gathering what the rules conclude, activation by activation, comes to one group
for each subject: the activations on that subject, in the order of the subjects'
first appearance.  The outcomes of a run are what is made of these groups.
-/

namespace FuzzyInference

open Fallible

variable {α : Type} [Scalar α]

/-! ## Distinct subjects -/

def subjects (activations : List (Activation α)) : List Label :=
  (activations.map Activation.subject).eraseDups

def activationsOn (activations : List (Activation α)) (subject : Label) : List (Activation α) :=
  activations.filter fun a => a.subject = subject

private theorem nodup_eraseDups : ∀ labels : List Label, labels.eraseDups.Nodup
  | [] => List.nodup_nil
  | first :: rest => by
      rw [List.eraseDups_cons, List.nodup_cons]
      exact ⟨by simp, nodup_eraseDups _⟩
termination_by labels => labels.length
decreasing_by exact Nat.lt_succ_of_le (List.length_filter_le _ _)

theorem nodup_subjects (activations : List (Activation α)) : (subjects activations).Nodup :=
  nodup_eraseDups _

theorem mem_subjects {activations : List (Activation α)} {s : Label} :
    s ∈ subjects activations ↔ ∃ a ∈ activations, a.subject = s := by
  simp [subjects]

theorem mem_activationsOn {activations : List (Activation α)} {s : Label} {a : Activation α} :
    a ∈ activationsOn activations s ↔ a ∈ activations ∧ a.subject = s := by
  simp [activationsOn]

theorem activationsOn_ne_nil {activations : List (Activation α)} {s : Label}
    (hs : s ∈ subjects activations) : activationsOn activations s ≠ [] := by
  obtain ⟨a, ha, has⟩ := mem_subjects.1 hs
  exact List.ne_nil_of_mem (mem_activationsOn.2 ⟨ha, has⟩)

theorem subjects_concat (activations : List (Activation α)) (a : Activation α) :
    subjects (activations ++ [a]) =
      if a.subject ∈ subjects activations then subjects activations
      else subjects activations ++ [a.subject] := by
  have hmem : a.subject ∈ subjects activations ↔ a.subject ∈ activations.map Activation.subject :=
    List.mem_eraseDups
  rw [subjects, List.map_append, List.eraseDups_append]
  by_cases hseen : a.subject ∈ activations.map Activation.subject
  · have hold :
        ([a].map Activation.subject).removeAll (activations.map Activation.subject) = [] := by
      simpa [List.removeAll] using hseen
    rw [if_pos (hmem.2 hseen), hold, List.eraseDups_nil, List.append_nil, subjects]
  · have hnew : ([a].map Activation.subject).removeAll (activations.map Activation.subject) =
        [a.subject] := by
      simpa [List.removeAll] using hseen
    rw [if_neg (fun h => hseen (hmem.1 h)), hnew]
    rfl

theorem activationsOn_concat (activations : List (Activation α)) (a : Activation α) (s : Label) :
    activationsOn (activations ++ [a]) s =
      if s = a.subject then activationsOn activations s ++ [a]
      else activationsOn activations s := by
  by_cases hs : s = a.subject
  · simp [activationsOn, hs]
  · have hne : a.subject ≠ s := fun h => hs h.symm
    simp [activationsOn, hs, hne]

/-! ## Groups -/

/-- An activation joins the group of its subject or makes a new one. -/
private theorem insertActivation_map {group : Label → List (Activation α)} {labels : List Label}
    (hgroup : ∀ s ∈ labels, ∀ t, (∃ b ∈ group s, b.subject = t) ↔ s = t)
    (hnodup : labels.Nodup) (a : Activation α) :
    insertActivation (labels.map group) a =
      if a.subject ∈ labels then
        labels.map fun s => if s = a.subject then group s ++ [a] else group s
      else labels.map group ++ [[a]] := by
  induction labels with
  | nil => rfl
  | cons s labels ih =>
      rw [List.nodup_cons] at hnodup
      have hrest := ih (fun t ht => hgroup t (List.mem_cons_of_mem _ ht)) hnodup.2
      have hany : (group s).any (fun b => b.subject = a.subject) = decide (s = a.subject) := by
        rw [Bool.eq_iff_iff]
        simpa using hgroup s List.mem_cons_self a.subject
      rw [List.map_cons, insertActivation, hany]
      by_cases hs : s = a.subject
      · have hothers : (labels.map fun t => if t = a.subject then group t ++ [a] else group t) =
            labels.map group := by
          apply List.map_congr_left
          intro t ht
          have hts : t ≠ a.subject := fun h => hnodup.1 ((h.trans hs.symm) ▸ ht)
          exact if_neg hts
        simp [hs, hothers]
      · have hne : a.subject ≠ s := fun h => hs h.symm
        rw [hrest]
        by_cases hmem : a.subject ∈ labels
        · simp [hs, hmem]
        · simp [hs, hne, hmem]

/-- What one more activation does to the groups of all subjects. -/
theorem groups_concat (activations : List (Activation α)) (a : Activation α) :
    (subjects (activations ++ [a])).map (activationsOn (activations ++ [a])) =
      if a.subject ∈ subjects activations then
        (subjects activations).map fun s =>
          if s = a.subject then activationsOn activations s ++ [a] else activationsOn activations s
      else (subjects activations).map (activationsOn activations) ++ [[a]] := by
  rw [subjects_concat, funext (activationsOn_concat activations a)]
  split_ifs with hseen
  · rfl
  · have hold : ((subjects activations).map fun s =>
        if s = a.subject then activationsOn activations s ++ [a] else activationsOn activations s) =
        (subjects activations).map (activationsOn activations) := by
      apply List.map_congr_left
      intro s hs
      have hsa : s ≠ a.subject := fun h => hseen (h ▸ hs)
      exact if_neg hsa
    have hnone : activationsOn activations a.subject = [] := by
      rw [activationsOn, List.filter_eq_nil_iff]
      intro b hb hbs
      exact hseen (mem_subjects.2 ⟨b, hb, by simpa using hbs⟩)
    rw [List.map_append, hold, List.map_singleton, if_pos rfl, hnone, List.nil_append]

theorem groupBySubject_eq (activations : List (Activation α)) :
    groupBySubject activations = (subjects activations).map (activationsOn activations) := by
  induction activations using List.reverseRecOn with
  | nil => rfl
  | append_singleton activations a ih =>
      have hgroup (s : Label) (hs : s ∈ subjects activations) (t : Label) :
          (∃ b ∈ activationsOn activations s, b.subject = t) ↔ s = t := by
        constructor
        · rintro ⟨b, hb, rfl⟩
          exact (mem_activationsOn.1 hb).2.symm
        · rintro rfl
          obtain ⟨b, hb, hbs⟩ := mem_subjects.1 hs
          exact ⟨b, mem_activationsOn.2 ⟨hb, hbs⟩, hbs⟩
      rw [groupBySubject, List.foldl_append, List.foldl_cons, List.foldl_nil, ← groupBySubject, ih,
        insertActivation_map hgroup (nodup_subjects activations), groups_concat]

/-! ## Runs -/

def Rule.contributions (rule : Rule α) (strength : Degree α) : List (Activation α) :=
  rule.conclusions.map fun c => ⟨c.subject, c.proposition.set, strength⟩

theorem Rule.evaluate_eq_ok_iff {rule : Rule α} {facts : Facts α} {algebra : Algebra}
    {activations : List (Activation α)} :
    rule.evaluate facts algebra = .ok activations ↔
      ∃ strength, rule.firingStrength facts algebra = .ok strength ∧
        activations = rule.contributions strength := by
  rw [Rule.evaluate, bind_eq_ok]
  simp [pure, Except.pure, contributions, eq_comm]

theorem Rule.subject_contributions (rule : Rule α) (strength : Degree α) :
    (rule.contributions strength).map Activation.subject =
      rule.conclusions.map Conclusion.subject := by
  simp [contributions, Function.comp_def]

namespace Engine

/-- The subjects that the rules conclude on, in the order in which the rules
and their conclusions first name them. -/
def concludedSubjects (engine : Engine α) : List Label :=
  (engine.rules.toList.flatMap fun rule => rule.conclusions.map Conclusion.subject).eraseDups

theorem evaluateRules_eq_ok_iff {engine : Engine α} {activations : List (Activation α)} :
    engine.evaluateRules = .ok activations ↔
      ∃ contributions, List.Forall₂ (fun rule contribution =>
          ∃ strength, rule.firingStrength engine.facts engine.algebra = .ok strength ∧
            contribution = rule.contributions strength) engine.rules.toList contributions ∧
        activations = contributions.flatten := by
  rw [evaluateRules, bind_eq_ok]
  simp only [mapM_eq_ok_iff, Rule.evaluate_eq_ok_iff, pure, Except.pure, Except.ok.injEq,
    eq_comm (b := activations)]

theorem exists_activations_iff {engine : Engine α} :
    (∃ activations, engine.evaluateRules = .ok activations) ↔
      ∀ rule ∈ engine.rules.toList, ∃ strength,
        rule.firingStrength engine.facts engine.algebra = .ok strength := by
  constructor
  · rintro ⟨activations, h⟩ rule hrule
    obtain ⟨contributions, hall, -⟩ := evaluateRules_eq_ok_iff.1 h
    obtain ⟨-, -, strength, hstrength, -⟩ := exists_mem_of_forall₂ hall hrule
    exact ⟨strength, hstrength⟩
  · intro h
    obtain ⟨contributions, hcontributions⟩ := exists_mapM
      (f := fun rule : Rule α => rule.evaluate engine.facts engine.algebra) fun rule hrule => by
        obtain ⟨strength, hstrength⟩ := h rule hrule
        exact ⟨_, Rule.evaluate_eq_ok_iff.2 ⟨strength, hstrength, rfl⟩⟩
    exact ⟨_, bind_eq_ok.2 ⟨contributions, hcontributions, rfl⟩⟩

theorem mem_activations {engine : Engine α} {activations : List (Activation α)}
    (h : engine.evaluateRules = .ok activations) {a : Activation α} :
    a ∈ activations ↔ ∃ rule ∈ engine.rules.toList, ∃ strength,
      rule.firingStrength engine.facts engine.algebra = .ok strength ∧
        a ∈ rule.contributions strength := by
  obtain ⟨contributions, hall, rfl⟩ := evaluateRules_eq_ok_iff.1 h
  rw [List.mem_flatten]
  constructor
  · rintro ⟨contribution, hmem, ha⟩
    obtain ⟨rule, hrule, strength, hstrength, rfl⟩ := exists_mem_of_forall₂ hall.flip hmem
    exact ⟨rule, hrule, strength, hstrength, ha⟩
  · rintro ⟨rule, hrule, strength, hstrength, ha⟩
    obtain ⟨contribution, hmem, strength', hstrength', rfl⟩ := exists_mem_of_forall₂ hall hrule
    rw [hstrength] at hstrength'
    cases hstrength'
    exact ⟨_, hmem, ha⟩

theorem subjects_evaluateRules {engine : Engine α} {activations : List (Activation α)}
    (h : engine.evaluateRules = .ok activations) :
    subjects activations = engine.concludedSubjects := by
  obtain ⟨contributions, hall, rfl⟩ := evaluateRules_eq_ok_iff.1 h
  rw [subjects, concludedSubjects, List.map_flatten, List.flatMap_def]
  congr 2
  apply map_eq_of_forall₂ hall
  rintro rule - _ ⟨strength, -, rfl⟩
  exact rule.subject_contributions strength

theorem execute_eq_ok_iff {engine : Engine α} {outcomes : Outcomes α} :
    engine.execute = .ok outcomes ↔ ∃ activations, engine.evaluateRules = .ok activations ∧
      List.Forall₂ (fun s o => engine.defuzzifier.defuzzify (activationsOn activations s) = .ok o)
        (subjects activations) outcomes.toList := by
  rw [execute, bind_eq_ok]
  apply exists_congr
  intro activations
  rw [bind_eq_ok, groupBySubject_eq]
  simp only [List.mapM_map, mapM_eq_ok_iff, pure, Except.pure, Except.ok.injEq]
  constructor
  · rintro ⟨hrules, _, hall, rfl⟩
    exact ⟨hrules, hall⟩
  · rintro ⟨hrules, hall⟩
    exact ⟨hrules, _, hall, rfl⟩

end Engine

namespace Outcomes

omit [Scalar α]

private theorem find?_subject {outcomes : List (Outcome α)} {o : Outcome α} (ho : o ∈ outcomes)
    (hnodup : (outcomes.map Outcome.subject).Nodup) :
    (outcomes.find? fun p => p.subject = o.subject) = some o := by
  induction outcomes with
  | nil => simp at ho
  | cons p outcomes ih =>
      rw [List.map_cons, List.nodup_cons] at hnodup
      rcases List.mem_cons.1 ho with rfl | ho
      · simp
      · have hne : p.subject ≠ o.subject := fun h => hnodup.1 (h ▸ List.mem_map_of_mem ho)
        simp [hne, ih ho hnodup.2]

theorem find?_of_mem {outcomes : Outcomes α} {o : Outcome α} (ho : o ∈ outcomes.toList)
    (hnodup : (outcomes.toList.map Outcome.subject).Nodup) :
    outcomes.find? o.subject = some o.value := by
  rw [find?, find?_subject ho hnodup, Option.map_some]

theorem find?_of_notMem {outcomes : Outcomes α} {s : Label}
    (hs : s ∉ outcomes.toList.map Outcome.subject) : outcomes.find? s = none := by
  rw [find?, Option.map_eq_none_iff, List.find?_eq_none]
  intro o ho hos
  exact hs (List.mem_map.2 ⟨o, ho, by simpa using hos⟩)

end Outcomes

namespace Engine

theorem defuzzify_subject {d : Defuzzifier} {activations : List (Activation α)} {s : Label}
    {o : Outcome α} (hs : s ∈ subjects activations)
    (ho : d.defuzzify (activationsOn activations s) = .ok o) : o.subject = s := by
  obtain ⟨a, ha, has⟩ := mem_subjects.1 hs
  have hmem := mem_activationsOn.2 ⟨ha, has⟩
  exact (Defuzzifier.subject_of_defuzzify ho a hmem).symm.trans has

/-- What a run says of a label: the value made of everything concluded on it,
if anything is. -/
theorem find?_of_execute {engine : Engine α} {outcomes : Outcomes α}
    {activations : List (Activation α)} (hrules : engine.evaluateRules = .ok activations)
    (h : engine.execute = .ok outcomes) :
    outcomes.toList.map Outcome.subject = subjects activations ∧
    (∀ s ∈ subjects activations, ∃ value,
      engine.defuzzifier.defuzzify (activationsOn activations s) = .ok ⟨s, value⟩ ∧
        ⟨s, value⟩ ∈ outcomes.toList ∧ outcomes.find? s = some value) ∧
    ∀ s ∉ subjects activations, outcomes.find? s = none := by
  obtain ⟨activations', hrules', hall⟩ := execute_eq_ok_iff.1 h
  obtain rfl : activations = activations' := by
    rw [hrules] at hrules'
    exact Except.ok.inj hrules'
  have hnodup := nodup_subjects activations
  have hsubject : outcomes.toList.map Outcome.subject = subjects activations := by
    rw [map_eq_of_forall₂ hall fun s hs o ho => defuzzify_subject hs ho, List.map_id']
  refine ⟨hsubject, fun s hs => ?_, fun s hs => Outcomes.find?_of_notMem (hsubject ▸ hs)⟩
  obtain ⟨o, hmem, ho⟩ := exists_mem_of_forall₂ hall hs
  obtain rfl := defuzzify_subject hs ho
  exact ⟨o.value, ho, hmem, Outcomes.find?_of_mem hmem (hsubject ▸ hnodup)⟩

/-- The outcomes of a run are on the subjects that the rules conclude on, each
once and in the order in which the rules first name them.  The value of a
subject is what the defuzzifier makes of everything concluded on it, rule by
rule and conclusion by conclusion, and no other label has a value. -/
theorem outcomes_of_execute {engine : Engine α} {outcomes : Outcomes α}
    (h : engine.execute = .ok outcomes) :
    outcomes.toList.map Outcome.subject = engine.concludedSubjects ∧
    engine.concludedSubjects.Nodup ∧
    ∃ contributions, List.Forall₂ (fun rule contribution =>
        ∃ strength, rule.firingStrength engine.facts engine.algebra = .ok strength ∧
          contribution = rule.conclusions.map fun c => ⟨c.subject, c.proposition.set, strength⟩)
        engine.rules.toList contributions ∧
      engine.evaluateRules = .ok contributions.flatten ∧
      (∀ s ∈ engine.concludedSubjects, ∃ value,
        engine.defuzzifier.defuzzify (contributions.flatten.filter fun a => a.subject = s) =
          .ok ⟨s, value⟩ ∧ ⟨s, value⟩ ∈ outcomes.toList ∧ outcomes.find? s = some value) ∧
      ∀ s ∉ engine.concludedSubjects, outcomes.find? s = none := by
  obtain ⟨activations, hrules, -⟩ := execute_eq_ok_iff.1 h
  obtain ⟨contributions, hcontributions, rfl⟩ := evaluateRules_eq_ok_iff.1 hrules
  have hfind := find?_of_execute hrules h
  have hnodup := nodup_subjects contributions.flatten
  rw [subjects_evaluateRules hrules] at hfind hnodup
  exact ⟨hfind.1, hnodup, contributions, hcontributions, hrules, hfind.2⟩

def coolRoom : Except (Fault Float) (Engine Float) := do
  let room ← Variable.declare "room" 0 40 [
    ← FuzzySet.named "cold" (← Shape.ofLeftEdge 10 25 0 1),
    ← FuzzySet.named "hot" (← Shape.ofRightEdge 15 30 0 1)]
  let fan ← Variable.declare "fan" 0 9 [
    ← FuzzySet.named "slow" (← Shape.ofSupport 2), ← FuzzySet.named "fast" (← Shape.ofSupport 8)]
  let lamp ← Variable.declare "lamp" 0 9 [
    ← FuzzySet.named "dim" (← Shape.ofSupport 1), ← FuzzySet.named "bright" (← Shape.ofSupport 7)]
  let cold ← (Condition.when (← room.is "cold")).build
  let hot ← (Condition.when (← room.is "hot")).build
  let first ← Rule.ofClauses (← Label.named "first") [cold] [
    ← Conclusion.ofState fan "slow", ← Conclusion.ofState lamp "bright"]
  let second ← Rule.ofClauses (← Label.named "second") [hot] [
    ← Conclusion.ofState lamp "dim", ← Conclusion.ofState fan "fast"]
  let (_, rules) ← Rulebook.empty.add first
  let (_, rules) ← rules.add second
  let facts ← Facts.empty.add "room" 20
  return { (sugeno .standard : Engine Float) with facts, rules }

theorem outcomes_of_coolRoom : ∃ engine outcomes,
    coolRoom = .ok engine ∧ engine.execute = .ok outcomes ∧
      (engine.concludedSubjects.map fun s => s.text) = ["fan", "lamp"] ∧
      outcomes.toList.map Outcome.subject = engine.concludedSubjects ∧
      ∀ s ∉ engine.concludedSubjects, outcomes.find? s = none := by
  have hnames : (coolRoom >>= execute).toOption.map
      (fun outcomes => outcomes.toList.map fun o => o.subject.text) = some ["fan", "lamp"] := by
    decide +kernel
  cases hrun : coolRoom >>= execute with
  | error fault =>
      rw [hrun] at hnames
      cases hnames
  | ok outcomes =>
      obtain ⟨engine, hengine, hexecute⟩ := bind_eq_ok.1 hrun
      obtain ⟨hsubjects, -, -, -, -, -, hnone⟩ := outcomes_of_execute hexecute
      rw [hrun] at hnames
      refine ⟨engine, outcomes, hengine, hexecute, ?_, hsubjects, hnone⟩
      rw [← hsubjects, List.map_map]
      exact Option.some.inj hnames

end Engine

end FuzzyInference
