import FuzzyInference.Proofs.Store.Keyed
import FuzzyInference.Proofs.Store.SlotTable
import FuzzyInference.Rulebook.Indexed
import FuzzyInference.Scalar.Rational
import Mathlib.Data.List.Induction

/-!
# An indexed rulebook is a list of rules

Slots, index and order describe the same rules after every run of changes, so
an indexed rulebook answers as the list of its rules in the order of addition
would.  A key finds the rule it was given to for as long as that is kept, and
nothing after.
-/

namespace FuzzyInference.IndexedRules

variable {α : Type} [Scalar α]

/-! ## Changes that keep a rule -/

def Kept (rule : Rule α) (changes : List (RuleChange α)) : Prop :=
  .clear ∉ changes ∧ .remove rule.label ∉ changes

theorem kept_cons {rule : Rule α} {change : RuleChange α} {changes : List (RuleChange α)} :
    Kept rule (change :: changes) ↔ Kept rule [change] ∧ Kept rule changes := by
  simp only [Kept, List.mem_cons, List.not_mem_nil, or_false]
  tauto

variable {σ κ : Type} [Slots σ κ (Rule α)]

/-! ## Adding to the three structures -/

def withRule (s : IndexedRules σ κ) (rule : Rule α) : IndexedRules σ κ :=
  let key := (Slots.insert rule s.slots).1
  ⟨(Slots.insert rule s.slots).2, s.byLabel.insert rule.label key, s.order ++ [key]⟩

theorem order_withRule (s : IndexedRules σ κ) (rule : Rule α) :
    (s.withRule rule).order = s.order ++ [(Slots.insert rule s.slots).1] := rfl

theorem byLabel_withRule (s : IndexedRules σ κ) (rule : Rule α) : (s.withRule rule).byLabel =
    s.byLabel.insert rule.label (Slots.insert rule s.slots).1 := rfl

variable {s : IndexedRules σ κ} {rule : Rule α} {label : Label} {key : κ}

theorem run_add_of_contains (h : s.byLabel.contains rule.label = true) :
    (add rule).run s = .error (.duplicateRule rule.label) s := by
  simp only [add, EStateM.run_bind, EStateM.run_get, h, ↓reduceIte, EStateM.run_throw]

theorem run_add_of_not_contains (h : s.byLabel.contains rule.label = false) :
    (add rule).run s = .ok (Slots.insert rule s.slots).1 (s.withRule rule) := by
  simp only [add, EStateM.run_bind, EStateM.run_get, h, Bool.false_eq_true, ↓reduceIte,
    EStateM.run_modify, EStateM.run_pure, withRule]

def Gives (s : IndexedRules σ κ) (rule : Rule α) (key : κ) : Prop :=
  ∃ s', (add rule).run s = .ok key s'

theorem gives_iff : s.Gives rule key ↔
    s.byLabel.contains rule.label = false ∧ key = (Slots.insert rule s.slots).1 := by
  unfold Gives
  cases hlabel : s.byLabel.contains rule.label with
  | true => simp [run_add_of_contains hlabel]
  | false => simp [run_add_of_not_contains hlabel, eq_comm]

/-! ## Agreement of the three structures -/

/-- The three structures describe the same rules: the keys in the order are
those that find a rule, each once, and the index has the key of a rule under
the label of the rule. -/
structure Consistent (s : IndexedRules σ κ) : Prop where
  distinct : s.order.Nodup
  mem_order_iff : ∀ k, k ∈ s.order ↔ ∃ rule, s.find? k = some rule
  byLabel_iff : ∀ label k, s.byLabel.get? label = some k ↔
    ∃ rule, s.find? k = some rule ∧ rule.label = label

namespace Consistent

theorem mem_toList (h : s.Consistent) : rule ∈ s.toList ↔ ∃ k, s.find? k = some rule := by
  rw [toList, List.mem_filterMap]
  exact ⟨fun ⟨k, _, hk⟩ => ⟨k, hk⟩, fun ⟨k, hk⟩ => ⟨k, (h.mem_order_iff k).2 ⟨rule, hk⟩, hk⟩⟩

theorem key_unique (h : s.Consistent) {k l : κ} {rule' : Rule α} (hk : s.find? k = some rule)
    (hl : s.find? l = some rule') (hlabel : rule.label = rule'.label) : k = l := by
  have hbyk := (h.byLabel_iff rule.label k).2 ⟨rule, hk, rfl⟩
  have hbyl := (h.byLabel_iff rule.label l).2 ⟨rule', hl, hlabel.symm⟩
  exact Option.some.inj (hbyk.symm.trans hbyl)

theorem nodup_labels (h : s.Consistent) : (s.toList.map Rule.label).Nodup := by
  rw [toList, List.map_filterMap]
  refine h.distinct.filterMap fun k l label hk hl => ?_
  obtain ⟨rule, hrule, rfl⟩ := Option.map_eq_some_iff.1 hk
  obtain ⟨rule', hrule', hlabel⟩ := Option.map_eq_some_iff.1 hl
  exact h.key_unique hrule hrule' hlabel.symm

theorem contains_iff (h : s.Consistent) :
    s.contains label = true ↔ label ∈ s.toList.map Rule.label := by
  rw [contains, Index.contains_iff, List.mem_map]
  simp only [h.byLabel_iff, h.mem_toList]
  exact ⟨fun ⟨k, rule, hk, hlabel⟩ => ⟨rule, ⟨k, hk⟩, hlabel⟩,
    fun ⟨rule, ⟨k, hk⟩, hlabel⟩ => ⟨k, rule, hk, hlabel⟩⟩

theorem get_eq (h : s.Consistent) (label : Label) : s.get label =
    ((s.toList.find? fun rule => rule.label = label).elim (.error (.missingRule label)) .ok :
      Except (Fault α) (Rule α)) := by
  have hfound : (s.byLabel.get? label >>= Slots.get? s.slots) =
      s.toList.find? fun rule => rule.label = label := by
    ext rule
    rw [find?_key_eq_some_iff h.nodup_labels, h.mem_toList, Option.bind_eq_bind,
      Option.bind_eq_some_iff]
    constructor
    · rintro ⟨k, hk, hrule⟩
      obtain ⟨rule', hrule', hlabel⟩ := (h.byLabel_iff label k).1 hk
      obtain rfl : rule' = rule := Option.some.inj (hrule'.symm.trans hrule)
      exact ⟨⟨k, hrule⟩, hlabel⟩
    · rintro ⟨⟨k, hk⟩, hlabel⟩
      exact ⟨k, (h.byLabel_iff label k).2 ⟨rule, hk, hlabel⟩, hk⟩
  rw [get, hfound]
  cases s.toList.find? fun rule => rule.label = label <;> rfl

end Consistent

/-! ## Removing from the three structures -/

variable [DecidableEq κ]

def without (s : IndexedRules σ κ) (label : Label) (key : κ) : IndexedRules σ κ :=
  ⟨(Slots.remove key s.slots).2, s.byLabel.erase label, s.order.filter fun k => k ≠ key⟩

theorem order_without (s : IndexedRules σ κ) (label : Label) (key : κ) :
    (s.without label key).order = s.order.filter fun k => k ≠ key := rfl

theorem byLabel_without (s : IndexedRules σ κ) (label : Label) (key : κ) :
    (s.without label key).byLabel = s.byLabel.erase label := rfl

theorem run_remove_of_none (h : s.byLabel.get? label = none) :
    (remove label).run s = .error (.missingRule label) s := by
  simp only [remove, EStateM.run_bind, EStateM.run_get, h]
  rfl

/-! ## Changes one after another -/

theorem apply_add_of_contains (h : s.byLabel.contains rule.label = true) :
    s.apply (.add rule) = s := by
  rw [apply, run_add_of_contains h]

theorem apply_add_of_not_contains (h : s.byLabel.contains rule.label = false) :
    s.apply (.add rule) = s.withRule rule := by
  rw [apply, run_add_of_not_contains h]

theorem apply_remove_of_none (h : s.byLabel.get? label = none) :
    s.apply (.remove label : RuleChange α) = s := by
  rw [apply, run_remove_of_none h]

theorem run_concat (changes : List (RuleChange α)) (change : RuleChange α) :
    (run (changes ++ [change]) : IndexedRules σ κ) = (run changes).apply change := by
  rw [run, List.foldl_append, List.foldl_cons, List.foldl_nil, ← run]

theorem run_append_cons (before : List (RuleChange α)) (change : RuleChange α)
    (after : List (RuleChange α)) : (run (before ++ change :: after) : IndexedRules σ κ) =
      after.foldl apply ((run before).apply change) := by
  rw [run, List.foldl_append, List.foldl_cons, ← run]

/-! ## Rules in slots -/

section Steps

variable [LawfulSlots σ]

theorem run_remove_of_some (h : s.byLabel.get? label = some key)
    (hrule : s.find? key = some rule) :
    (remove label).run s = .ok rule (s.without label key) := by
  have hremoved := (LawfulSlots.fst_remove s.slots key).trans hrule
  simp only [remove, EStateM.run_bind, EStateM.run_get, h, EStateM.run_modify, hremoved,
    EStateM.run_pure, without]

theorem Consistent.size_eq (h : s.Consistent) : s.size = s.toList.length := by
  have hsome (k : κ) : k ∈ s.order ↔ (s.find? k).isSome = true :=
    (h.mem_order_iff k).trans Option.isSome_iff_exists.symm
  have hlength : s.toList.length = s.order.length := by
    rw [toList, List.length_filterMap_eq_countP, List.countP_eq_length]
    exact fun k hk => (hsome k).1 hk
  rw [hlength, size, LawfulSlots.size_eq s.slots s.order h.distinct hsome]

/-! ## Changes keep the agreement -/

/-- The key that a rule is given has not been given before. -/
theorem find?_fresh (s : IndexedRules σ κ) (rule : Rule α) :
    s.find? (Slots.insert rule s.slots).1 = none := by
  by_contra hfound
  obtain ⟨old, hold⟩ := Option.ne_none_iff_exists'.1 hfound
  exact LawfulSlots.not_issued_insert s.slots rule (LawfulSlots.issued_of_get? hold)

theorem find?_withRule (s : IndexedRules σ κ) (rule : Rule α) (k : κ) :
    (s.withRule rule).find? k =
      if k = (Slots.insert rule s.slots).1 then some rule else s.find? k :=
  LawfulSlots.get?_insert s.slots rule k

theorem consistent_empty : (empty : IndexedRules σ κ).Consistent where
  distinct := List.nodup_nil
  mem_order_iff k := by simp [empty, find?, LawfulSlots.get?_empty]
  byLabel_iff label k := by simp [empty, find?, LawfulSlots.get?_empty]

theorem consistent_clear (s : IndexedRules σ κ) : s.clear.Consistent where
  distinct := List.nodup_nil
  mem_order_iff k := by simp [clear, find?, LawfulSlots.get?_clear]
  byLabel_iff label k := by simp [clear, find?, LawfulSlots.get?_clear]

namespace Consistent

theorem not_mem_order (h : s.Consistent) (rule : Rule α) :
    (Slots.insert rule s.slots).1 ∉ s.order := by
  rw [h.mem_order_iff, s.find?_fresh rule]
  simp

theorem withRule (h : s.Consistent) (hnew : s.byLabel.contains rule.label = false) :
    (s.withRule rule).Consistent where
  distinct := List.nodup_append.2 ⟨h.distinct, by simp, by
    intro k hk l hl heq
    have hlast : l = (Slots.insert rule s.slots).1 := by simpa using hl
    exact h.not_mem_order rule (hlast ▸ heq ▸ hk)⟩
  mem_order_iff k := by
    rw [find?_withRule, order_withRule, List.mem_append, h.mem_order_iff]
    by_cases hk : k = (Slots.insert rule s.slots).1 <;> simp [hk]
  byLabel_iff label k := by
    have hothers : ¬ ∃ l, s.byLabel.get? rule.label = some l := by
      rw [← Index.contains_iff, hnew]
      simp
    rw [find?_withRule, byLabel_withRule, Index.get?_insert]
    by_cases hlabel : label = rule.label
    · rw [if_pos hlabel, Option.some.injEq]
      constructor
      · rintro rfl
        exact ⟨rule, if_pos rfl, hlabel.symm⟩
      · rintro ⟨old, hold, holdlabel⟩
        by_contra hne
        rw [if_neg fun heq => hne heq.symm] at hold
        exact hothers ⟨k, (h.byLabel_iff _ k).2 ⟨old, hold, holdlabel.trans hlabel⟩⟩
    · rw [if_neg hlabel, h.byLabel_iff]
      by_cases hk : k = (Slots.insert rule s.slots).1
      · simp [hk, s.find?_fresh rule, Ne.symm hlabel]
      · simp [hk]

theorem toList_withRule (h : s.Consistent) (rule : Rule α) :
    (s.withRule rule).toList = s.toList ++ [rule] := by
  have hold : s.order.filterMap (s.withRule rule).find? = s.toList := by
    refine List.filterMap_congr fun k hk => ?_
    have hne : k ≠ (Slots.insert rule s.slots).1 := fun heq => h.not_mem_order rule (heq ▸ hk)
    rw [find?_withRule, if_neg hne]
    rfl
  have hnew : (s.withRule rule).find? (Slots.insert rule s.slots).1 = some rule := by
    rw [find?_withRule, if_pos rfl]
  change (s.withRule rule).order.filterMap (s.withRule rule).find? = _
  rw [order_withRule, List.filterMap_append, hold, List.filterMap_cons_some hnew, List.filterMap_nil]

theorem find?_without (h : s.Consistent) (hkey : s.byLabel.get? label = some key) (k : κ) :
    (s.without label key).find? k = (s.find? k).filter fun rule => rule.label ≠ label := by
  change Slots.get? (Slots.remove key s.slots).2 k = _
  obtain ⟨old, hold, rfl⟩ := (h.byLabel_iff label key).1 hkey
  rw [LawfulSlots.get?_remove]
  by_cases hk : k = key
  · rw [if_pos hk, hk, hold, Option.filter_some, if_neg (by simp)]
  · rw [if_neg hk]
    cases hrule : s.find? k with
    | none => exact hrule
    | some rule =>
        have hlabel : rule.label ≠ old.label := fun heq => hk (h.key_unique hrule hold heq)
        rw [Option.filter_some, if_pos (by simpa using hlabel)]
        exact hrule

theorem without (h : s.Consistent) (hkey : s.byLabel.get? label = some key) :
    (s.without label key).Consistent := by
  have hcut (k : κ) (rule : Rule α) : (s.without label key).find? k = some rule ↔
      s.find? k = some rule ∧ rule.label ≠ label := by
    rw [h.find?_without hkey, Option.filter_eq_some_iff]
    simp
  obtain ⟨old, hold, hlabel⟩ := (h.byLabel_iff label key).1 hkey
  refine ⟨h.distinct.filter _, fun k => ?_, fun l k => ?_⟩
  · simp only [hcut, order_without, List.mem_filter, h.mem_order_iff, decide_eq_true_eq]
    constructor
    · rintro ⟨⟨rule, hrule⟩, hne⟩
      exact ⟨rule, hrule, fun heq => hne (h.key_unique hrule hold (heq.trans hlabel.symm))⟩
    · rintro ⟨rule, hrule, hne⟩
      refine ⟨⟨rule, hrule⟩, ?_⟩
      rintro rfl
      obtain rfl : old = rule := Option.some.inj (hold.symm.trans hrule)
      exact hne hlabel
  · simp only [hcut, byLabel_without, Index.get?_erase]
    by_cases hl : l = label
    · rw [if_pos hl]
      simp only [hl, reduceCtorEq, false_iff]
      rintro ⟨rule, ⟨-, hne⟩, heq⟩
      exact hne heq
    · rw [if_neg hl, h.byLabel_iff]
      constructor
      · rintro ⟨rule, hrule, rfl⟩
        exact ⟨rule, ⟨hrule, hl⟩, rfl⟩
      · rintro ⟨rule, ⟨hrule, -⟩, heq⟩
        exact ⟨rule, hrule, heq⟩

theorem toList_without (h : s.Consistent) (hkey : s.byLabel.get? label = some key) :
    (s.without label key).toList = s.toList.filter fun rule => rule.label ≠ label := by
  obtain ⟨old, hold, hlabel⟩ := (h.byLabel_iff label key).1 hkey
  change (s.without label key).order.filterMap (s.without label key).find? = _
  rw [order_without, toList, List.filterMap_filter, List.filter_filterMap]
  refine List.filterMap_congr fun k hk => ?_
  rw [h.find?_without hkey]
  by_cases hkk : k = key
  · have hcut : (s.find? k).filter (fun rule => decide (rule.label ≠ label)) = none := by
      simp [hkk, hold, hlabel]
    simp only [hkk, ne_eq, not_true_eq_false, decide_false, Bool.false_eq_true, ↓reduceIte]
    exact (hkk ▸ hcut).symm
  · simp only [ne_eq, hkk, not_false_eq_true, decide_true, ↓reduceIte]
    rfl

end Consistent

/-! ## Runs -/

theorem Consistent.apply_remove_of_some (h : s.Consistent)
    (hkey : s.byLabel.get? label = some key) :
    s.apply (.remove label : RuleChange α) = s.without label key := by
  obtain ⟨rule, hrule, -⟩ := (h.byLabel_iff label key).1 hkey
  rw [apply, run_remove_of_some hkey hrule]

theorem Consistent.apply (h : s.Consistent) (change : RuleChange α) :
    (s.apply change).Consistent := by
  cases change with
  | add rule =>
      cases hlabel : s.byLabel.contains rule.label with
      | true => rwa [apply_add_of_contains hlabel]
      | false => rw [apply_add_of_not_contains hlabel]; exact h.withRule hlabel
  | remove label =>
      cases hkey : s.byLabel.get? label with
      | none => rwa [apply_remove_of_none hkey]
      | some key => rw [h.apply_remove_of_some hkey]; exact h.without hkey
  | clear => exact s.consistent_clear

theorem Consistent.foldl (h : s.Consistent) (changes : List (RuleChange α)) :
    (changes.foldl IndexedRules.apply s).Consistent := by
  induction changes generalizing s with
  | nil => exact h
  | cons change changes ih => exact ih (h.apply change)

theorem consistent_run (changes : List (RuleChange α)) :
    (run changes : IndexedRules σ κ).Consistent :=
  consistent_empty.foldl changes

/-! ## Keys -/

/-- A rule that is added is found by the key it is given, and takes nothing from
any other. -/
theorem find?_apply_add_iff {new : Rule α} :
    (s.apply (.add new)).find? key = some rule ↔
      (new = rule ∧ s.Gives rule key) ∨ s.find? key = some rule := by
  cases hlabel : s.byLabel.contains new.label with
  | true =>
      rw [apply_add_of_contains hlabel]
      refine ⟨.inr, fun hfound => hfound.resolve_left ?_⟩
      rintro ⟨rfl, hgives⟩
      rw [gives_iff, hlabel] at hgives
      exact Bool.noConfusion hgives.1
  | false =>
      rw [apply_add_of_not_contains hlabel, find?_withRule]
      by_cases hkey : key = (Slots.insert new s.slots).1
      · -- nothing was found by a fresh key
        rw [if_pos hkey, hkey, s.find?_fresh new, Option.some_inj]
        constructor
        · rintro rfl
          exact .inl ⟨rfl, gives_iff.2 ⟨hlabel, rfl⟩⟩
        · rintro (⟨heq, -⟩ | hrule)
          · exact heq
          · cases hrule
      · rw [if_neg hkey]
        refine ⟨.inr, fun hfound => hfound.resolve_left ?_⟩
        rintro ⟨rfl, hgives⟩
        exact hkey (gives_iff.1 hgives).2

theorem Consistent.find?_apply_remove_iff (h : s.Consistent) {label : Label} :
    (s.apply (.remove label)).find? key = some rule ↔
      s.find? key = some rule ∧ rule.label ≠ label := by
  cases hkey : s.byLabel.get? label with
  | none =>
      rw [apply_remove_of_none hkey]
      refine ⟨fun hrule => ⟨hrule, ?_⟩, And.left⟩
      rintro rfl
      have hfound := (h.byLabel_iff _ key).2 ⟨rule, hrule, rfl⟩
      rw [hkey] at hfound
      cases hfound
  | some k =>
      rw [h.apply_remove_of_some hkey, h.find?_without hkey, Option.filter_eq_some_iff]
      simp

/-- After a change a key finds a rule if it is given to it by the change, or
found it before and the change does not take that out. -/
theorem Consistent.find?_apply_iff (h : s.Consistent) (change : RuleChange α) :
    (s.apply change).find? key = some rule ↔
      (change = .add rule ∧ s.Gives rule key) ∨
        (s.find? key = some rule ∧ Kept rule [change]) := by
  cases change with
  | add new =>
      rw [find?_apply_add_iff]
      simp [Kept]
  | remove label =>
      rw [h.find?_apply_remove_iff]
      simp [Kept, eq_comm]
  | clear =>
      have hcleared : s.clear.find? key = none := LawfulSlots.get?_clear s.slots key
      rw [IndexedRules.apply, hcleared]
      simp [Kept]

theorem Consistent.issued_apply (h : s.Consistent) (hissued : Slots.Issued s.slots key)
    (change : RuleChange α) : Slots.Issued (s.apply change).slots key := by
  cases change with
  | add rule =>
      cases hlabel : s.byLabel.contains rule.label with
      | true => rwa [apply_add_of_contains hlabel]
      | false =>
          rw [apply_add_of_not_contains hlabel]
          exact (LawfulSlots.issued_insert s.slots rule key).2 (.inr hissued)
  | remove label =>
      cases hkey : s.byLabel.get? label with
      | none => rwa [apply_remove_of_none hkey]
      | some k =>
          rw [h.apply_remove_of_some hkey]
          exact (LawfulSlots.issued_remove s.slots k key).2 hissued
  | clear => exact (LawfulSlots.issued_clear s.slots key).2 hissued

namespace Consistent

theorem find?_foldl_of_kept (h : s.Consistent) (hrule : s.find? key = some rule)
    {changes : List (RuleChange α)} (hkept : Kept rule changes) :
    (changes.foldl IndexedRules.apply s).find? key = some rule := by
  induction changes generalizing s with
  | nil => exact hrule
  | cons change changes ih =>
      obtain ⟨hfirst, hrest⟩ := kept_cons.1 hkept
      exact ih (h.apply change) ((h.find?_apply_iff change).2 (.inr ⟨hrule, hfirst⟩)) hrest

/-- A key that has been given and finds nothing is not given by a change. -/
theorem find?_apply_of_lost (h : s.Consistent) (hissued : Slots.Issued s.slots key)
    (hlost : s.find? key = none) (change : RuleChange α) : (s.apply change).find? key = none := by
  by_contra hfound
  obtain ⟨rule, hrule⟩ := Option.ne_none_iff_exists'.1 hfound
  rcases (h.find?_apply_iff change).1 hrule with ⟨-, hgives⟩ | ⟨hold, -⟩
  · rw [(gives_iff.1 hgives).2] at hissued
    exact LawfulSlots.not_issued_insert s.slots rule hissued
  · rw [hlost] at hold
    cases hold

theorem find?_apply_of_not_kept (h : s.Consistent) (hrule : s.find? key = some rule)
    {change : RuleChange α} (hkept : ¬ Kept rule [change]) :
    (s.apply change).find? key = none := by
  by_contra hfound
  obtain ⟨other, hother⟩ := Option.ne_none_iff_exists'.1 hfound
  rcases (h.find?_apply_iff change).1 hother with ⟨-, hgives⟩ | ⟨hold, hkeeps⟩
  · rw [(gives_iff.1 hgives).2, s.find?_fresh] at hrule
    cases hrule
  · obtain rfl : rule = other := Option.some.inj (hrule.symm.trans hold)
    exact hkept hkeeps

theorem find?_foldl_of_lost (h : s.Consistent) (hissued : Slots.Issued s.slots key)
    (hlost : s.find? key = none) (changes : List (RuleChange α)) :
    (changes.foldl IndexedRules.apply s).find? key = none := by
  induction changes generalizing s with
  | nil => exact hlost
  | cons change changes ih =>
      exact ih (h.apply change) (h.issued_apply hissued change)
        (h.find?_apply_of_lost hissued hlost change)

theorem find?_foldl_of_not_kept (h : s.Consistent) (hrule : s.find? key = some rule)
    {changes : List (RuleChange α)} (hkept : ¬ Kept rule changes) :
    (changes.foldl IndexedRules.apply s).find? key = none := by
  induction changes generalizing s with
  | nil => exact absurd ⟨List.not_mem_nil, List.not_mem_nil⟩ hkept
  | cons change changes ih =>
      by_cases hfirst : Kept rule [change]
      · exact ih (h.apply change) ((h.find?_apply_iff change).2 (.inr ⟨hrule, hfirst⟩))
          fun hrest => hkept (kept_cons.2 ⟨hfirst, hrest⟩)
      · have hissued := LawfulSlots.issued_of_get? hrule
        -- from here on the key is lost, and a lost key is not given again
        exact (h.apply change).find?_foldl_of_lost (h.issued_apply hissued change)
          (h.find?_apply_of_not_kept hrule hfirst) changes

end Consistent

/-- The key that a rule is given finds it exactly until it is taken out. -/
theorem find?_after_gives {before after : List (RuleChange α)}
    (hgives : (run before : IndexedRules σ κ).Gives rule key) :
    (Kept rule after →
      (run (before ++ .add rule :: after) : IndexedRules σ κ).find? key = some rule) ∧
    (¬ Kept rule after →
      (run (before ++ .add rule :: after) : IndexedRules σ κ).find? key = none) := by
  have hbefore : (run before : IndexedRules σ κ).Consistent := consistent_run before
  have hrule := (hbefore.find?_apply_iff (.add rule)).2 (.inl ⟨rfl, hgives⟩)
  rw [run_append_cons]
  exact ⟨(hbefore.apply _).find?_foldl_of_kept hrule,
    (hbefore.apply _).find?_foldl_of_not_kept hrule⟩

theorem find?_run_iff (changes : List (RuleChange α)) (key : κ) (rule : Rule α) :
    (run changes : IndexedRules σ κ).find? key = some rule ↔
      ∃ before after, changes = before ++ .add rule :: after ∧
        (run before : IndexedRules σ κ).Gives rule key ∧ Kept rule after := by
  constructor
  · intro hrule
    induction changes using List.reverseRecOn with
    | nil => simp [run, empty, find?, LawfulSlots.get?_empty] at hrule
    | append_singleton changes change ih =>
        rw [run_concat, (consistent_run changes).find?_apply_iff] at hrule
        rcases hrule with ⟨rfl, hgives⟩ | ⟨hrule, hlast⟩
        · exact ⟨changes, [], rfl, hgives, List.not_mem_nil, List.not_mem_nil⟩
        · obtain ⟨before, after, rfl, hgives, hkept⟩ := ih hrule
          refine ⟨before, after ++ [change], by simp, hgives, ?_⟩
          simp only [Kept, List.mem_append, not_or] at hkept hlast ⊢
          exact ⟨⟨hkept.1, hlast.1⟩, hkept.2, hlast.2⟩
  · rintro ⟨before, after, rfl, hgives, hkept⟩
    exact (find?_after_gives hgives).1 hkept

/-! ## Runs answer as lists -/

/-- After every run of changes slots, index and order agree, and the rulebook
answers as the list of its rules, which have distinct labels.  A rule of a new
label goes to the end; the rule of a known label can be removed, and goes to
the end when it is added again; a change that fails changes nothing.  A key
finds the rule it was given to for as long as that is kept, and nothing after,
even where its label or its slot is used again. -/
theorem run_answers_as_list (changes : List (RuleChange α)) :
    let s : IndexedRules σ κ := run changes
    s.Consistent ∧ (s.toList.map Rule.label).Nodup ∧
    (s.size = s.toList.length ∧ s.isEmpty = s.toList.isEmpty ∧ ∀ label,
      (s.contains label = true ↔ label ∈ s.toList.map Rule.label) ∧
      s.get label = ((s.toList.find? fun rule => rule.label = label).elim
        (.error (.missingRule label)) .ok : Except (Fault α) (Rule α))) ∧
    (∀ rule : Rule α,
      if rule.label ∈ s.toList.map Rule.label then
        (add rule).run s = .error (.duplicateRule rule.label) s
      else ∃ key s', (add rule).run s = .ok key s' ∧ s'.toList = s.toList ++ [rule]) ∧
    (∀ label,
      if label ∈ s.toList.map Rule.label then
        ∃ rule s', s.get label = .ok rule ∧ (remove label).run s = .ok rule s' ∧
          s'.toList = (s.toList.filter fun rule => rule.label ≠ label) ∧
          ∃ key s'', (add rule).run s' = .ok key s'' ∧ s''.toList = s'.toList ++ [rule]
      else (remove label).run s = .error (.missingRule label) s) ∧
    s.clear.toList = [] ∧
    (∀ key rule, s.find? key = some rule ↔ ∃ before after,
      changes = before ++ .add rule :: after ∧
        (run before : IndexedRules σ κ).Gives rule key ∧ Kept rule after) ∧
    ∀ before rule after key, changes = before ++ .add rule :: after →
      (run before : IndexedRules σ κ).Gives rule key → ¬ Kept rule after → s.find? key = none := by
  intro s
  have h : s.Consistent := consistent_run changes
  have hlabel (label : Label) :
      s.byLabel.contains label = true ↔ label ∈ s.toList.map Rule.label := h.contains_iff
  have hisEmpty : s.isEmpty = s.toList.isEmpty := by
    rw [isEmpty, h.size_eq, Bool.eq_iff_iff, beq_iff_eq, List.length_eq_zero_iff,
      List.isEmpty_iff]
  refine ⟨h, h.nodup_labels, ⟨h.size_eq, hisEmpty, fun label => ⟨h.contains_iff, h.get_eq label⟩⟩,
    fun rule => ?_, fun label => ?_, rfl, find?_run_iff changes, ?_⟩
  · split_ifs with hknown
    · exact run_add_of_contains ((hlabel rule.label).2 hknown)
    · have hnew : s.byLabel.contains rule.label = false := by
        rwa [← hlabel, Bool.not_eq_true] at hknown
      exact ⟨_, _, run_add_of_not_contains hnew, h.toList_withRule rule⟩
  · split_ifs with hknown
    · obtain ⟨key, hkey⟩ := Index.contains_iff.1 ((hlabel label).2 hknown)
      obtain ⟨rule, hrule, rfl⟩ := (h.byLabel_iff label key).1 hkey
      have hget : s.get rule.label = .ok rule := by
        have hslot : Slots.get? s.slots key = some rule := hrule
        rw [get, hkey, Option.bind_eq_bind, Option.bind_some, hslot]
      have hnew : (s.without rule.label key).byLabel.contains rule.label = false := by
        rw [byLabel_without, Index.contains, Index.get?_erase, if_pos rfl]
        rfl
      exact ⟨rule, _, hget, run_remove_of_some hkey hrule, h.toList_without hkey, _, _,
        run_add_of_not_contains hnew, (h.without hkey).toList_withRule rule⟩
    · exact run_remove_of_none
        (Option.not_isSome_iff_eq_none.1 fun hsome => hknown ((hlabel label).1 hsome))
  · rintro before rule after key rfl hgives hkept
    exact (find?_after_gives hgives).2 hkept

end Steps

def fanRules : Except (Fault Rat) (Rule Rat × Rule Rat) := do
  let room ← Variable.declare "room" 0 40 [← FuzzySet.named "hot" (← Shape.ofRightEdge 15 30 0 1)]
  let fan ← Variable.declare "fan" 0 9 [← FuzzySet.named "fast" (← Shape.ofSupport 8)]
  let hot ← (Condition.when (← room.is "hot")).build
  let fast ← Conclusion.ofState fan "fast"
  return (← Rule.ofClauses (← Label.named "first") [hot] [fast],
    ← Rule.ofClauses (← Label.named "second") [hot] [fast])

theorem run_of_fanRules : ∃ first second, fanRules = .ok (first, second) ∧
    let s : IndexedRules (SlotTable (Rule Rat)) SlotKey :=
      run [.add first, .add second, .remove first.label, .add first]
    (s.toList.map fun rule => rule.label.text) = ["second", "first"] ∧
      s.order.map SlotKey.index = [1, 0] ∧ s.Consistent ∧ s.size = s.toList.length ∧
      s.find? ⟨0, 0⟩ = none := by
  have hrun : (fanRules.toOption.map fun (first, second) =>
      let s : IndexedRules (SlotTable (Rule Rat)) SlotKey :=
        run [.add first, .add second, .remove first.label, .add first]
      (s.toList.map fun rule => rule.label.text, s.order.map SlotKey.index)) =
      some (["second", "first"], [1, 0]) := by decide +kernel
  cases hrules : fanRules with
  | error fault => simp [hrules, Except.toOption] at hrun
  | ok rules =>
      obtain ⟨first, second⟩ := rules
      rw [hrules] at hrun
      have hboth := Prod.mk.inj (Option.some.inj hrun)
      obtain ⟨hconsistent, -, ⟨hsize, -⟩, -, -, -, -, hlost⟩ := run_answers_as_list
        (σ := SlotTable (Rule Rat)) [.add first, .add second, .remove first.label, .add first]
      refine ⟨first, second, rfl, hboth.1, hboth.2, hconsistent, hsize, ?_⟩
      exact hlost [] first _ ⟨0, 0⟩ rfl ⟨_, rfl⟩ (by simp [Kept])

end FuzzyInference.IndexedRules
