import FuzzyInference.Proofs.Store.Facts
import FuzzyInference.Proofs.Store.Lists
import FuzzyInference.Proofs.Store.Rules

/-!
# Indexed stores represent the stores of an engine

An engine searches lists of facts and rules.  A change gives the same answer, and
keeps the same facts and rules, in a list and in an indexed store.
-/

namespace FuzzyInference

open Fallible

/-- A step of an indexed store and one of a list: the same fault, with the store
as it was, or results that are related. -/
inductive Follows {ε ρ β τ : Type} (R : β → ρ → τ → Prop) (s : ρ) :
    EStateM.Result ε ρ β → Except ε τ → Prop
  | ok {b : β} {s' : ρ} {t : τ} (h : R b s' t) : Follows R s (.ok b s') (.ok t)
  | error (fault : ε) : Follows R s (.error fault s) (.error fault)

variable {α : Type} [Scalar α]

/-! ## Facts -/

def Fact.observation (fact : Fact α) : Observation α := ⟨fact.label, fact.value⟩

def Facts.apply (facts : Facts α) : FactChange α → Facts α
  | .add raw value => (facts.add raw value).toOption.getD facts
  | .update raw value => (facts.update raw value).toOption.getD facts
  | .remove raw => ((facts.remove? raw).map Prod.snd).getD facts
  | .clear => .empty

theorem Observation.named_eq (raw : String) (value : α) :
    Observation.named raw value = (Facts.fact raw value).map Fact.observation := by
  cases hraw : Label.ofRaw raw with
  | error fault => rw [named_of_error hraw, Facts.fact_of_error hraw]; rfl
  | ok label =>
      rw [named_of_ok hraw, Facts.fact_of_ok hraw]
      by_cases hfinite : Scalar.isFinite value = true
      · rw [if_pos hfinite, dif_pos hfinite]
        rfl
      · rw [if_neg hfinite, dif_neg hfinite]
        rfl

namespace IndexedFacts

structure Represents (s : IndexedFacts α) (facts : Facts α) : Prop where
  consistent : s.Consistent
  toList_eq : s.toList = facts.toList.map Fact.observation

namespace Represents

variable {s : IndexedFacts α} {facts : Facts α}

theorem empty : (IndexedFacts.empty : IndexedFacts α).Represents .empty :=
  ⟨consistent_empty, rfl⟩

theorem labels_eq (h : s.Represents facts) :
    s.toList.map Observation.label = facts.labels := by
  rw [h.toList_eq, List.map_map]
  rfl

theorem contains_iff (h : s.Represents facts) {label : Label} :
    s.data.contains label = true ↔ label ∈ facts.labels := by
  rw [← h.consistent.mem_labels, h.labels_eq]

theorem get?_eq (h : s.Represents facts) (label : Label) :
    s.data.get? label = (facts.find? label).map Fact.observation := by
  rw [h.consistent.get?_eq_find?, h.toList_eq, List.find?_map]
  rfl

theorem get_eq (h : s.Represents facts) (label : Label) :
    (s.get label).map Observation.value = facts.get label := by
  rw [get, h.get?_eq, Facts.get]
  cases facts.find? label <;> rfl

theorem add (h : s.Represents facts) (raw : String) (value : α) :
    Follows (fun _ s' facts' => s'.Represents facts') s ((IndexedFacts.add raw value).run s)
      (facts.add raw value) := by
  have hnamed := Observation.named_eq raw value
  cases hnew : Facts.fact raw value with
  | error fault =>
      rw [hnew] at hnamed
      rw [Facts.add_of_error hnew, run_add_of_error hnamed]
      exact .error fault
  | ok new =>
      rw [hnew] at hnamed
      by_cases hknown : new.label ∈ facts.labels
      · rw [Facts.add_of_mem hnew hknown, run_add_of_contains hnamed (h.contains_iff.2 hknown)]
        exact .error _
      · have hunknown : s.data.contains new.label = false := by
          rw [← Bool.not_eq_true, h.contains_iff]
          exact hknown
        obtain ⟨facts', hadd, hlist⟩ := Facts.add_of_notMem hnew hknown
        rw [hadd, run_add_of_not_contains hnamed hunknown]
        refine .ok ⟨h.consistent.withLast hunknown new.finite, ?_⟩
        rw [h.consistent.toList_withLast hunknown, h.toList_eq, hlist, List.map_append]
        rfl

theorem update (h : s.Represents facts) (raw : String) (value : α) :
    Follows (fun _ s' facts' => s'.Represents facts') s ((IndexedFacts.update raw value).run s)
      (facts.update raw value) := by
  have hnamed := Observation.named_eq raw value
  cases hnew : Facts.fact raw value with
  | error fault =>
      rw [hnew] at hnamed
      rw [Facts.update_of_error hnew, run_update_of_error hnamed]
      exact .error fault
  | ok new =>
      rw [hnew] at hnamed
      by_cases hknown : new.label ∈ facts.labels
      · obtain ⟨old, hold⟩ : ∃ old, s.data.get? new.observation.label = some old :=
          Index.contains_iff.1 (h.contains_iff.2 hknown)
        obtain ⟨facts', hupdate, hlist⟩ := Facts.update_of_mem hnew hknown
        rw [hupdate, run_update_of_some hnamed hold]
        refine .ok ⟨h.consistent.withValue hold new.finite, ?_⟩
        rw [h.consistent.toList_withValue hold, h.toList_eq, hlist, List.map_map, List.map_map]
        refine List.map_congr_left fun fact _ => ?_
        by_cases hfact : fact.label = new.label <;> simp [Fact.observation, hfact]
      · have hnone : s.data.get? new.observation.label = none := by
          rw [← Option.not_isSome_iff_eq_none]
          exact fun hsome => hknown (h.contains_iff.1 hsome)
        rw [Facts.update_of_notMem hnew hknown, run_update_of_none hnamed hnone]
        exact .error _

theorem remove? (h : s.Represents facts) (raw : String) :
    match facts.remove? raw with
    | some (fact, facts') => ∃ s', (IndexedFacts.remove? raw).run.run s =
        (some fact.observation, s') ∧ s'.Represents facts'
    | none => (IndexedFacts.remove? raw).run.run s = (none, s) := by
  cases hraw : Label.ofRaw raw with
  | error fault =>
      rw [Facts.remove?_of_error hraw]
      exact run_remove?_of_error hraw
  | ok label =>
      have hget := h.get?_eq label
      rw [Facts.remove?_of_ok hraw]
      cases hfind : facts.find? label with
      | none =>
          rw [hfind] at hget
          exact run_remove?_of_none hraw hget
      | some fact =>
          rw [hfind] at hget
          refine ⟨_, run_remove?_of_some hraw hget, h.consistent.without label, ?_⟩
          rw [h.consistent.toList_without, h.toList_eq, List.filter_map]
          rfl

theorem apply (h : s.Represents facts) (change : FactChange α) :
    (s.apply change).Represents (facts.apply change) := by
  cases change with
  | add raw value =>
      have hadd := h.add raw value
      rw [IndexedFacts.apply, Facts.apply]
      generalize (IndexedFacts.add raw value).run s = r, facts.add raw value = x at hadd ⊢
      cases hadd with
      | ok hs' => exact hs'
      | error fault => exact h
  | update raw value =>
      have hupdate := h.update raw value
      rw [IndexedFacts.apply, Facts.apply]
      generalize (IndexedFacts.update raw value).run s = r, facts.update raw value = x at hupdate ⊢
      cases hupdate with
      | ok hs' => exact hs'
      | error fault => exact h
  | remove raw =>
      have hremove := h.remove? raw
      rw [IndexedFacts.apply, Facts.apply]
      cases hfacts : facts.remove? raw with
      | none =>
          rw [hfacts] at hremove
          rw [hremove]
          exact h
      | some removed =>
          rw [hfacts] at hremove
          obtain ⟨s', hrun, hs'⟩ := hremove
          rw [hrun]
          exact hs'
  | clear => exact .empty

end Represents

end IndexedFacts

/-! ## Rules -/

def Rulebook.apply (rules : Rulebook α) : RuleChange α → Rulebook α
  | .add rule => ((rules.add rule).toOption.map Prod.snd).getD rules
  | .remove label => ((rules.remove label).toOption.map Prod.snd).getD rules
  | .clear => rules.clear

namespace IndexedRules

variable {σ κ : Type} [Slots σ κ (Rule α)]

structure Represents (s : IndexedRules σ κ) (rules : Rulebook α) : Prop where
  consistent : s.Consistent
  toList_eq : s.toList = rules.toList

namespace Represents

variable {s : IndexedRules σ κ} {rules : Rulebook α}

theorem get_eq (h : s.Represents rules) (label : Label) : s.get label = rules.get label := by
  rw [h.consistent.get_eq, h.toList_eq, Rulebook.get]
  cases rules.toList.find? fun rule => rule.label = label <;> rfl

theorem contains_iff (h : s.Represents rules) {label : Label} :
    s.byLabel.contains label = true ↔ label ∈ rules.labels := by
  rw [← contains, h.consistent.contains_iff, h.toList_eq]
  rfl

variable [DecidableEq κ] [LawfulSlots σ]

theorem empty : (IndexedRules.empty : IndexedRules σ κ).Represents (.empty : Rulebook α) :=
  ⟨consistent_empty, rfl⟩

theorem add (h : s.Represents rules) (rule : Rule α) :
    Follows (fun _ s' p => s'.Represents p.2) s ((IndexedRules.add rule).run s)
      (rules.add rule) := by
  by_cases hknown : rule.label ∈ rules.labels
  · rw [Rulebook.add_of_mem hknown, run_add_of_contains (h.contains_iff.2 hknown)]
    exact .error _
  · have hnew : s.byLabel.contains rule.label = false := by
      rw [← Bool.not_eq_true, h.contains_iff]
      exact hknown
    obtain ⟨key, rules', hadd, hlist⟩ := Rulebook.add_of_notMem hknown
    rw [hadd, run_add_of_not_contains hnew]
    refine .ok ⟨h.consistent.withRule hnew, ?_⟩
    rw [h.consistent.toList_withRule, h.toList_eq, hlist]

theorem remove (h : s.Represents rules) (label : Label) :
    Follows (fun rule s' p => rule = p.1 ∧ s'.Represents p.2) s
      ((IndexedRules.remove label).run s) (rules.remove label) := by
  have hget := h.get_eq label
  rw [get] at hget
  rw [Rulebook.remove_eq, ← hget]
  cases hkey : s.byLabel.get? label with
  | none =>
      rw [run_remove_of_none hkey]
      exact .error _
  | some key =>
      obtain ⟨rule, hrule, -⟩ := (h.consistent.byLabel_iff label key).1 hkey
      have hslot : Slots.get? s.slots key = some rule := hrule
      rw [run_remove_of_some hkey hrule, Option.bind_eq_bind, Option.bind_some, hslot]
      refine .ok ⟨rfl, h.consistent.without hkey, ?_⟩
      rw [h.consistent.toList_without hkey, h.toList_eq, Rulebook.toList_erase]

theorem apply (h : s.Represents rules) (change : RuleChange α) :
    (s.apply change).Represents (rules.apply change) := by
  cases change with
  | add rule =>
      have hadd := h.add rule
      rw [IndexedRules.apply, Rulebook.apply]
      generalize (IndexedRules.add rule).run s = r, rules.add rule = x at hadd ⊢
      cases hadd with
      | ok hs' => exact hs'
      | error fault => exact h
  | remove label =>
      have hremove := h.remove label
      rw [IndexedRules.apply, Rulebook.apply]
      generalize (IndexedRules.remove label).run s = r, rules.remove label = x at hremove ⊢
      cases hremove with
      | ok hs' => exact hs'.2
      | error fault => exact h
  | clear => exact ⟨s.consistent_clear, rfl⟩

end Represents

end IndexedRules

end FuzzyInference
