import FuzzyInference.Facts
import FuzzyInference.Rulebook
import FuzzyInference.Proofs.Fallible
import Mathlib.Data.List.Nodup

/-!
# Changes of facts and rules

What a change does to the list of facts or of rules, and that it leaves the
facts of other labels and the other rules as they are.
-/

namespace FuzzyInference

open Fallible

variable {α : Type} [Scalar α]

/-! ## Facts -/

namespace Facts

variable {facts facts' : Facts α} {raw : String} {value : α} {label s : Label} {new : Fact α}

theorem fact_of_error {fault : NameFault} (hraw : Label.ofRaw raw = .error fault) (value : α) :
    fact raw value = .error (.badName fault) := by
  rw [fact, Label.named, hraw]
  rfl

theorem fact_of_ok (hraw : Label.ofRaw raw = .ok label) (value : α) : fact raw value =
    if h : Scalar.isFinite value = true then .ok ⟨label, value, h⟩
    else .error (.notFinite value) := by
  rw [fact, Label.named, hraw]
  rfl

theorem label_of_fact (h : fact raw value = .ok new) : Label.ofRaw raw = .ok new.label := by
  cases hraw : Label.ofRaw raw with
  | error fault => rw [fact_of_error hraw] at h; cases h
  | ok label =>
      rw [fact_of_ok hraw] at h
      split_ifs at h
      cases h
      rfl

theorem add_of_error {fault : Fault α} (h : fact raw value = .error fault) :
    facts.add raw value = .error fault := by
  rw [add, h]
  rfl

theorem add_of_mem (h : fact raw value = .ok new) (hknown : new.label ∈ facts.labels) :
    facts.add raw value = .error (.duplicateFact new.label) := by
  rw [add, h]
  exact dif_pos hknown

theorem add_of_notMem (h : fact raw value = .ok new) (hknown : new.label ∉ facts.labels) :
    ∃ facts', facts.add raw value = .ok facts' ∧ facts'.toList = facts.toList ++ [new] := by
  rw [add, h]
  exact ⟨_, dif_neg hknown, rfl⟩

theorem update_of_error {fault : Fault α} (h : fact raw value = .error fault) :
    facts.update raw value = .error fault := by
  rw [update, h]
  rfl

theorem update_of_notMem (h : fact raw value = .ok new) (hknown : new.label ∉ facts.labels) :
    facts.update raw value = .error (.missingFact new.label) := by
  rw [update, h]
  exact if_neg hknown

theorem update_of_mem (h : fact raw value = .ok new) (hknown : new.label ∈ facts.labels) :
    ∃ facts', facts.update raw value = .ok facts' ∧
      facts'.toList = facts.toList.map fun old => if old.label = new.label then new else old := by
  rw [update, h]
  exact ⟨_, if_pos hknown, rfl⟩

theorem remove?_of_error {fault : NameFault} (hraw : Label.ofRaw raw = .error fault) :
    facts.remove? raw = none := by
  rw [remove?, hraw]
  rfl

theorem remove?_of_ok (hraw : Label.ofRaw raw = .ok label) :
    facts.remove? raw = (facts.find? label).map fun fact => (fact, facts.erase label) := by
  rw [remove?, hraw]
  change (facts.find? label >>= fun fact => pure (fact, facts.erase label)) = _
  cases facts.find? label <;> rfl

/-! ### Facts of other labels -/

theorem find?_of_add (h : facts.add raw value = .ok facts') (hs : Label.ofRaw raw ≠ .ok s) :
    facts'.find? s = facts.find? s := by
  cases hnew : fact raw value with
  | error fault => rw [add_of_error hnew] at h; cases h
  | ok new =>
      have hne : new.label ≠ s := fun heq => hs (heq ▸ label_of_fact hnew)
      by_cases hknown : new.label ∈ facts.labels
      · rw [add_of_mem hnew hknown] at h
        cases h
      · obtain ⟨_, hadd, hlist⟩ := add_of_notMem hnew hknown
        obtain rfl := Except.ok.inj (hadd.symm.trans h)
        simp [find?, hlist, hne]

theorem find?_of_update (h : facts.update raw value = .ok facts')
    (hs : Label.ofRaw raw ≠ .ok s) : facts'.find? s = facts.find? s := by
  cases hnew : fact raw value with
  | error fault => rw [update_of_error hnew] at h; cases h
  | ok new =>
      have hne : new.label ≠ s := fun heq => hs (heq ▸ label_of_fact hnew)
      by_cases hknown : new.label ∈ facts.labels
      · obtain ⟨_, hupdate, hlist⟩ := update_of_mem hnew hknown
        obtain rfl := Except.ok.inj (hupdate.symm.trans h)
        rw [find?, find?, hlist]
        induction facts.toList with
        | nil => rfl
        | cons old rest ih =>
            by_cases hold : old.label = new.label
            · simp [hold, hne, ih]
            · simp only [List.map_cons, if_neg hold, List.find?_cons, ih]
      · rw [update_of_notMem hnew hknown] at h
        cases h

theorem find?_erase (facts : Facts α) (hs : label ≠ s) :
    (facts.erase label).find? s = facts.find? s := by
  rw [find?, erase, List.find?_filter, find?]
  congr 1
  funext fact
  by_cases hfact : fact.label = s <;> simp [hfact, Ne.symm hs]

theorem find?_of_remove? {old : Fact α} (h : facts.remove? raw = some (old, facts'))
    (hs : Label.ofRaw raw ≠ .ok s) : facts'.find? s = facts.find? s := by
  cases hraw : Label.ofRaw raw with
  | error fault => rw [remove?_of_error hraw] at h; cases h
  | ok label =>
      have hne : label ≠ s := fun heq => hs (heq ▸ hraw)
      rw [remove?_of_ok hraw, Option.map_eq_some_iff] at h
      obtain ⟨fact, -, heq⟩ := h
      cases heq
      exact facts.find?_erase hne

end Facts

/-! ## Rules -/

namespace Rulebook

variable {rules rules' : Rulebook α} {rule : Rule α} {key : RuleKey} {label : Label}

theorem add_of_mem (h : rule.label ∈ rules.labels) :
    rules.add rule = .error (.duplicateRule rule.label) := by
  rw [labels, toList, List.map_map] at h
  exact dif_pos h

theorem add_of_notMem (h : rule.label ∉ rules.labels) :
    ∃ key rules', rules.add rule = .ok (key, rules') ∧ rules'.toList = rules.toList ++ [rule] := by
  rw [labels, toList, List.map_map] at h
  exact ⟨_, _, dif_neg h, by simp [toList]⟩

theorem remove_eq (rules : Rulebook α) (label : Label) :
    rules.remove label = (rules.get label).map fun rule => (rule, rules.erase label) := by
  rw [remove]
  cases rules.get label <;> rfl

theorem toList_erase (rules : Rulebook α) (label : Label) :
    (rules.erase label).toList = rules.toList.filter fun rule => rule.label ≠ label := by
  rw [toList, toList, erase, List.filter_map]
  rfl

/-! ### The other rules -/

theorem toList_of_add (h : rules.add rule = .ok (key, rules')) :
    rules'.toList = rules.toList ++ [rule] := by
  by_cases hknown : rule.label ∈ rules.labels
  · rw [add_of_mem hknown] at h
    cases h
  · obtain ⟨_, _, hadd, hlist⟩ := add_of_notMem hknown
    cases hadd.symm.trans h
    exact hlist

theorem mem_of_get (h : rules.get label = .ok rule) : rule ∈ rules.toList ∧ rule.label = label := by
  rw [get] at h
  cases hfind : rules.toList.find? fun rule => rule.label = label with
  | none => rw [hfind] at h; cases h
  | some found =>
      rw [hfind] at h
      cases h
      exact ⟨List.mem_of_find?_eq_some hfind, by simpa using List.find?_some hfind⟩

theorem toList_of_remove (h : rules.remove label = .ok (rule, rules')) :
    ∃ before after, rules.toList = before ++ rule :: after ∧ rules'.toList = before ++ after := by
  rw [remove_eq] at h
  cases hget : rules.get label with
  | error fault => rw [hget] at h; cases h
  | ok found =>
      rw [hget] at h
      cases h
      obtain ⟨hmem, hlabel⟩ := mem_of_get hget
      obtain ⟨before, after, hlist⟩ := List.append_of_mem hmem
      refine ⟨before, after, hlist, ?_⟩
      have hdistinct : ((before ++ rule :: after).map Rule.label).Nodup := by
        rw [← hlist, toList, List.map_map]
        exact rules.distinct
      rw [List.map_append, List.map_cons, List.nodup_middle, List.nodup_cons,
        ← List.map_append] at hdistinct
      have hothers : ∀ other ∈ before ++ after, other.label ≠ label :=
        fun other hother heq =>
          hdistinct.1 (List.mem_map.2 ⟨other, hother, heq.trans hlabel.symm⟩)
      rw [toList_erase, hlist, List.filter_append, List.filter_cons_of_neg (by simp [hlabel]),
        ← List.filter_append, List.filter_eq_self]
      simpa using hothers

end Rulebook

end FuzzyInference
