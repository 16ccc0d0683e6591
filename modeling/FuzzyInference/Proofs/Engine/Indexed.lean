import FuzzyInference.Engine.Indexed
import FuzzyInference.Proofs.Engine.Subjects
import FuzzyInference.Proofs.Store.Represents

/-!
# Indexed engines run as engines do

The index over the groups leads from every subject to its group after any number
of activations, so the groups are those that a search makes.  Stores that
represent the same facts and rules give every premise the same degree, and an
indexed engine has the outcomes of an engine after whatever changes of both.
-/

namespace FuzzyInference

variable {α : Type} [Scalar α]

/-! ## Groups -/

namespace IndexedGroups

variable {s : IndexedGroups α} {subject : Label} {a : Activation α}
  {activations : List (Activation α)} {i : Nat}

theorem run_place_of_some (h : s.places.get? subject = some i) :
    (place subject).run s = (i, s) := by
  simp only [place, StateT.run_bind, StateT.run_get, pure_bind, h, StateT.run_pure]
  rfl

theorem run_place_of_none (h : s.places.get? subject = none) : (place subject).run s =
    (s.groups.length, ⟨s.places.insert subject s.groups.length, s.groups ++ [[]]⟩) := by
  have hlast : (s.groups ++ [[]]).length - 1 = s.groups.length := by simp
  simp only [place, StateT.run_bind, StateT.run_get, pure_bind, h, StateT.run_modify, hlast,
    StateT.run_pure]
  rfl

theorem run_push_of_some (h : s.places.get? a.subject = some i) : ((push a).run s).2 =
    ⟨s.places, s.groups.modify i fun group => group ++ [a]⟩ := by
  rw [push, StateT.run_bind, run_place_of_some h]
  rfl

theorem run_push_of_none (h : s.places.get? a.subject = none) : ((push a).run s).2 =
    ⟨s.places.insert a.subject s.groups.length, s.groups ++ [[a]]⟩ := by
  have hfilled : ((s.groups ++ [[]]).modify s.groups.length fun group => group ++ [a]) =
      s.groups ++ [[a]] := by
    rw [List.modify_eq_take_drop]
    simp
  rw [push, StateT.run_bind, run_place_of_none h, ← hfilled]
  rfl

/-- The groups are those of the activations, and the index has the place of
every subject among them. -/
structure Represents (s : IndexedGroups α) (activations : List (Activation α)) : Prop where
  groups_eq : s.groups = (subjects activations).map (activationsOn activations)
  places_iff : ∀ subject i, s.places.get? subject = some i ↔
    (subjects activations)[i]? = some subject

private theorem getElem?_concat_iff {β : Type} {l : List β} {last b : β} :
    (l ++ [last])[i]? = some b ↔ l[i]? = some b ∨ (i = l.length ∧ b = last) := by
  rw [List.getElem?_append]
  split_ifs with hi
  · simp [Nat.ne_of_lt hi]
  · rw [List.getElem?_eq_none (Nat.le_of_not_lt hi), List.getElem?_singleton]
    by_cases hlast : i = l.length
    · simp [hlast, eq_comm]
    · have hbeyond : i - l.length ≠ 0 := by omega
      simp [hlast, hbeyond]

namespace Represents

theorem empty : (IndexedGroups.empty : IndexedGroups α).Represents [] :=
  ⟨rfl, by simp [IndexedGroups.empty, subjects]⟩

theorem length_eq (h : s.Represents activations) :
    s.groups.length = (subjects activations).length := by
  rw [h.groups_eq, List.length_map]

theorem lt_length (h : s.Represents activations) (hplace : s.places.get? subject = some i) :
    i < s.groups.length := by
  rw [h.length_eq]
  exact (List.getElem?_eq_some_iff.1 ((h.places_iff subject i).1 hplace)).1

theorem push (h : s.Represents activations) (a : Activation α) :
    ((IndexedGroups.push a).run s).2.Represents (activations ++ [a]) := by
  cases hplace : s.places.get? a.subject with
  | some i =>
      have hi := (h.places_iff a.subject i).1 hplace
      have hseen : a.subject ∈ subjects activations := List.mem_of_getElem? hi
      rw [run_push_of_some hplace]
      refine ⟨?_, ?_⟩
      · rw [groups_concat, if_pos hseen, h.groups_eq]
        refine List.ext_getElem? fun j => ?_
        rw [List.getElem?_modify, List.getElem?_map, List.getElem?_map]
        cases hj : (subjects activations)[j]? with
        | none => rfl
        | some t =>
            -- the subjects differ, so only one place has the subject of the activation
            have hsame : i = j ↔ t = a.subject := by
              rw [← List.getElem?_inj (List.getElem?_eq_some_iff.1 hi).1 (nodup_subjects _), hi, hj,
                Option.some_inj, eq_comm]
            simp [hsame]
      · rw [subjects_concat, if_pos hseen]
        exact h.places_iff
  | none =>
      have hseen : a.subject ∉ subjects activations := by
        intro hmem
        obtain ⟨i, hi⟩ := List.getElem?_of_mem hmem
        rw [(h.places_iff a.subject i).2 hi] at hplace
        cases hplace
      rw [run_push_of_none hplace]
      refine ⟨?_, fun subject i => ?_⟩
      · rw [groups_concat, if_neg hseen, h.groups_eq]
      · rw [Index.get?_insert, subjects_concat, if_neg hseen, getElem?_concat_iff, h.length_eq]
        by_cases hsubject : subject = a.subject
        · subst hsubject
          have hnew : (subjects activations)[i]? ≠ some a.subject :=
            fun hi => hseen (List.mem_of_getElem? hi)
          simp [hnew, eq_comm]
        · simp [hsubject, h.places_iff]

end Represents

theorem represents_run (activations : List (Activation α)) :
    (run activations).Represents activations := by
  induction activations using List.reverseRecOn with
  | nil => exact .empty
  | append_singleton activations a ih =>
      rw [run, List.foldl_append]
      exact ih.push a

/-- The place of a subject, found or made, is that of a group. -/
theorem place_lt_length (activations : List (Activation α)) (subject : Label) :
    ((place subject).run (run activations)).1 <
      ((place subject).run (run activations)).2.groups.length := by
  cases hplace : (run activations).places.get? subject with
  | some i =>
      rw [run_place_of_some hplace]
      exact (represents_run activations).lt_length hplace
  | none =>
      rw [run_place_of_none hplace, List.length_append]
      exact Nat.lt_succ_self _

/-- Finding the place of a group in an index makes the same groups as a search for
the group. -/
theorem groups_run (activations : List (Activation α)) :
    (run activations).groups = groupBySubject activations := by
  rw [(represents_run activations).groups_eq, groupBySubject_eq]

end IndexedGroups

/-! ## Evaluation -/

namespace IndexedFacts.Represents

variable {s : IndexedFacts α} {facts : Facts α}

theorem evaluateIn_proposition (h : s.Represents facts) (p : Proposition α) :
    p.evaluateIn s = p.evaluate facts := by
  rw [Proposition.evaluate_eq_lookup, ← h.get_eq, Proposition.evaluateIn]
  cases s.get p.subject <;> rfl

theorem evaluateIn_condition (h : s.Represents facts) (c : Condition α) (algebra : Algebra) :
    c.evaluateIn s algebra = c.evaluate facts algebra := by
  simp only [Condition.evaluateIn, h.evaluateIn_proposition]
  rfl

theorem firingStrengthIn_eq (h : s.Represents facts) (rule : Rule α) (algebra : Algebra) :
    rule.firingStrengthIn s algebra = rule.firingStrength facts algebra := by
  simp only [Rule.firingStrengthIn, h.evaluateIn_condition]
  rfl

theorem evaluateIn_rule (h : s.Represents facts) (rule : Rule α) (algebra : Algebra) :
    rule.evaluateIn s algebra = rule.evaluate facts algebra := by
  rw [Rule.evaluate_eq_lookup, Rule.evaluateIn, h.firingStrengthIn_eq]

end IndexedFacts.Represents

/-! ## Engines -/

namespace Engine

def apply (engine : Engine α) : EngineChange α → Engine α
  | .facts change => { engine with facts := engine.facts.apply change }
  | .rules change => { engine with rules := engine.rules.apply change }

def after (engine : Engine α) (changes : List (EngineChange α)) : Engine α :=
  changes.foldl apply engine

end Engine

namespace IndexedEngine

variable {σ κ : Type} [Slots σ κ (Rule α)]

structure Represents (engine : IndexedEngine α σ κ) (listed : Engine α) : Prop where
  facts : engine.facts.Represents listed.facts
  rules : engine.rules.Represents listed.rules
  algebra : engine.algebra = listed.algebra
  defuzzifier : engine.defuzzifier = listed.defuzzifier

/-- Putting the contributions of each rule behind those of the rules before it
leaves them rule by rule. -/
private theorem foldlM_append {β : Type} (f : β → Except (Fault α) (List (Activation α)))
    (l : List β) (before : List (Activation α)) :
    (l.foldlM (fun activations b => do return activations ++ (← f b)) before) =
      (l.mapM f).map fun contributions => before ++ contributions.flatten := by
  induction l generalizing before with
  | nil => exact congrArg Except.ok (List.append_nil before).symm
  | cons b l ih =>
      rw [List.foldlM_cons, List.mapM_cons]
      cases hb : f b with
      | error fault => rfl
      | ok contribution =>
          refine (ih (before ++ contribution)).trans ?_
          cases hl : l.mapM f with
          | error fault => rfl
          | ok contributions =>
              exact congrArg Except.ok
                (List.append_assoc before contribution contributions.flatten)

namespace Represents

variable {engine : IndexedEngine α σ κ} {listed : Engine α}

theorem evaluateRules_eq (h : engine.Represents listed) :
    engine.evaluateRules = listed.evaluateRules := by
  rw [evaluateRules, h.rules.toList_eq, h.algebra]
  simp only [h.facts.evaluateIn_rule]
  rw [foldlM_append]
  rfl

theorem execute_eq (h : engine.Represents listed) : engine.execute = listed.execute := by
  rw [execute, h.evaluateRules_eq, h.defuzzifier]
  simp only [IndexedGroups.groups_run]
  rfl

variable [DecidableEq κ] [LawfulSlots σ]

theorem new (algebra : Algebra) (defuzzifier : Defuzzifier) (kind : Option EngineKind) :
    (IndexedEngine.new algebra defuzzifier : IndexedEngine α σ κ).Represents
      { Engine.new algebra defuzzifier with kind } :=
  ⟨.empty, .empty, rfl, rfl⟩

theorem apply (h : engine.Represents listed) (change : EngineChange α) :
    (engine.apply change).Represents (listed.apply change) := by
  cases change with
  | facts change => exact { h with facts := h.facts.apply change }
  | rules change => exact { h with rules := h.rules.apply change }

theorem after (h : engine.Represents listed) (changes : List (EngineChange α)) :
    (engine.after changes).Represents (listed.after changes) := by
  induction changes generalizing engine listed with
  | nil => exact h
  | cons change changes ih => exact ih (h.apply change)

end Represents

/-- After whatever changes of facts and rules, a run over indexed stores has the
outcomes, or the fault, of a run over lists. -/
theorem execute_after [DecidableEq κ] [LawfulSlots σ] (algebra : Algebra)
    (defuzzifier : Defuzzifier) (kind : Option EngineKind) (changes : List (EngineChange α)) :
    ((new algebra defuzzifier : IndexedEngine α σ κ).after changes).execute =
      (({ Engine.new algebra defuzzifier with kind } : Engine α).after changes).execute :=
  ((Represents.new algebra defuzzifier kind).after changes).execute_eq

end IndexedEngine

end FuzzyInference
