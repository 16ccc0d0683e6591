import FuzzyInference.Facts.Indexed
import FuzzyInference.Proofs.Store.Keyed
import FuzzyInference.Scalar.Rational

/-!
# Indexed facts are a list of observations

Index and order hold the same labels after every run of changes, so indexed
facts answer as the list of their observations in the order of addition would.
A change that fails has changed nothing.
-/

namespace FuzzyInference

variable {α : Type}

namespace IndexedFacts

/-! ## What a change does to index and order -/

def withLast (s : IndexedFacts α) (new : Observation α) : IndexedFacts α :=
  ⟨s.data.insert new.label new, s.order ++ [new.label]⟩

def withValue (s : IndexedFacts α) (label : Label) (old : Observation α) (value : α) :
    IndexedFacts α :=
  ⟨s.data.insert label { old with value }, s.order⟩

def without (s : IndexedFacts α) (label : Label) : IndexedFacts α :=
  ⟨s.data.erase label, s.order.filter fun l => l ≠ label⟩

theorem get?_withLast (s : IndexedFacts α) (new : Observation α) (l : Label) :
    (s.withLast new).data.get? l = if l = new.label then some new else s.data.get? l :=
  s.data.get?_insert new.label new l

theorem get?_withValue (s : IndexedFacts α) (label : Label) (old : Observation α) (value : α)
    (l : Label) : (s.withValue label old value).data.get? l =
      if l = label then some { old with value } else s.data.get? l :=
  s.data.get?_insert label { old with value } l

theorem get?_without (s : IndexedFacts α) (label l : Label) :
    (s.without label).data.get? l = if l = label then none else s.data.get? l :=
  s.data.get?_erase label l

theorem order_withLast (s : IndexedFacts α) (new : Observation α) :
    (s.withLast new).order = s.order ++ [new.label] := rfl

theorem order_withValue (s : IndexedFacts α) (label : Label) (old : Observation α) (value : α) :
    (s.withValue label old value).order = s.order := rfl

theorem order_without (s : IndexedFacts α) (label : Label) :
    (s.without label).order = s.order.filter fun l => l ≠ label := rfl

variable {s : IndexedFacts α} {raw : String} {label : Label} {old : Observation α}

private theorem run_liftExcept_ok (s : IndexedFacts α) (new : Observation α) :
    (liftExcept (.ok new : Except (Fault α) (Observation α)) :
      EStateM (Fault α) (IndexedFacts α) (Observation α)).run s = .ok new s := rfl

private theorem run_liftExcept_error (s : IndexedFacts α) (fault : Fault α) :
    (liftExcept (.error fault : Except (Fault α) (Observation α)) :
      EStateM (Fault α) (IndexedFacts α) (Observation α)).run s = .error fault s := rfl

/-! ## Removing -/

theorem run_remove?_of_error {fault : NameFault} (hraw : Label.ofRaw raw = .error fault) :
    (remove? raw).run.run s = (none, s) := by
  simp only [remove?, hraw, Except.toOption]
  rfl

private theorem run_remove?_of_ok (hraw : Label.ofRaw raw = .ok label) :
    (remove? raw).run.run s =
      match s.data.get? label with
      | some removed => (some removed, s.without label)
      | none => (none, s) := by
  have hget : StateT.run (m := Id) (OptionT.run MonadState.get) s = pure (some s, s) := rfl
  simp only [remove?, hraw, Except.toOption, OptionT.run_bind, Option.elimM, StateT.run_bind,
    hget, pure_bind, Option.elim_some]
  cases s.data.get? label with
  | none => rfl
  | some removed => rfl

theorem run_remove?_of_none (hraw : Label.ofRaw raw = .ok label)
    (hknown : s.data.get? label = none) : (remove? raw).run.run s = (none, s) := by
  rw [run_remove?_of_ok hraw, hknown]

theorem run_remove?_of_some (hraw : Label.ofRaw raw = .ok label)
    (hknown : s.data.get? label = some old) :
    (remove? raw).run.run s = (some old, s.without label) := by
  rw [run_remove?_of_ok hraw, hknown]

end IndexedFacts

variable [Scalar α]

/-! ## What is observed -/

namespace Observation

variable {raw : String} {value : α} {label : Label} {fault : NameFault}

theorem named_of_error (hraw : Label.ofRaw raw = .error fault) (value : α) :
    Observation.named raw value = .error (.badName fault) := by
  rw [Observation.named, Label.named, hraw]
  rfl

theorem named_of_ok (hraw : Label.ofRaw raw = .ok label) (value : α) :
    Observation.named raw value =
      if Scalar.isFinite value then .ok ⟨label, value⟩ else .error (.notFinite value) := by
  rw [Observation.named, Label.named, hraw]
  rfl

theorem isFinite_of_named {new : Observation α} (h : Observation.named raw value = .ok new) :
    Scalar.isFinite new.value = true := by
  cases hraw : Label.ofRaw raw with
  | error fault => rw [named_of_error hraw] at h; cases h
  | ok label =>
      rw [named_of_ok hraw] at h
      split_ifs at h with hfinite
      cases h
      exact hfinite

end Observation

namespace IndexedFacts

/-! ## Adding and updating -/

section Writes

variable {s : IndexedFacts α} {raw : String} {value : α} {new old : Observation α}
  {fault : Fault α}

theorem run_add_of_error (h : Observation.named raw value = .error fault) :
    (add raw value).run s = .error fault s := by
  simp only [add, h, EStateM.run_bind, run_liftExcept_error]

theorem run_add_of_contains (h : Observation.named raw value = .ok new)
    (hknown : s.data.contains new.label = true) :
    (add raw value).run s = .error (.duplicateFact new.label) s := by
  simp only [add, h, EStateM.run_bind, run_liftExcept_ok, EStateM.run_get, hknown, ↓reduceIte,
    EStateM.run_throw]

theorem run_add_of_not_contains (h : Observation.named raw value = .ok new)
    (hknown : s.data.contains new.label = false) :
    (add raw value).run s = .ok () (s.withLast new) := by
  simp only [add, h, EStateM.run_bind, run_liftExcept_ok, EStateM.run_get, hknown,
    Bool.false_eq_true, ↓reduceIte, EStateM.run_modify, withLast]

theorem run_update_of_error (h : Observation.named raw value = .error fault) :
    (update raw value).run s = .error fault s := by
  simp only [update, h, EStateM.run_bind, run_liftExcept_error]

theorem run_update_of_none (h : Observation.named raw value = .ok new)
    (hknown : s.data.get? new.label = none) :
    (update raw value).run s = .error (.missingFact new.label) s := by
  simp only [update, h, EStateM.run_bind, run_liftExcept_ok, EStateM.run_get, hknown]
  rfl

theorem run_update_of_some (h : Observation.named raw value = .ok new)
    (hknown : s.data.get? new.label = some old) :
    (update raw value).run s = .ok () (s.withValue new.label old new.value) := by
  simp only [update, h, EStateM.run_bind, run_liftExcept_ok, EStateM.run_get, hknown,
    EStateM.run_modify, withValue]

end Writes

variable {s : IndexedFacts α} {raw : String} {value : α} {label : Label} {new old : Observation α}

/-! ## Agreement of index and order -/

/-- Index and order hold the same labels, the order each of them once.  What is
held for a label is an observation of that label, with a finite value. -/
structure Consistent (s : IndexedFacts α) : Prop where
  distinct : s.order.Nodup
  mem_order_iff : ∀ l, l ∈ s.order ↔ s.data.contains l = true
  held : ∀ l o, s.data.get? l = some o → o.label = l ∧ Scalar.isFinite o.value = true

namespace Consistent

theorem label_eq (h : s.Consistent) {o : Observation α} (ho : s.data.get? label = some o) :
    o.label = label := (h.held label o ho).1

theorem mem_toList (h : s.Consistent) {o : Observation α} :
    o ∈ s.toList ↔ s.data.get? o.label = some o := by
  rw [toList, List.mem_filterMap]
  constructor
  · rintro ⟨l, -, ho⟩
    rwa [h.label_eq ho]
  · exact fun ho => ⟨o.label, (h.mem_order_iff _).2 (Index.contains_iff.2 ⟨o, ho⟩), ho⟩

theorem labels_toList (h : s.Consistent) : s.toList.map Observation.label = s.order := by
  have hlabel (l : Label) (hl : l ∈ s.order) : (s.data.get? l).map Observation.label = some l := by
    obtain ⟨o, ho⟩ := Index.contains_iff.1 ((h.mem_order_iff l).1 hl)
    rw [ho, Option.map_some, h.label_eq ho]
  rw [toList, List.map_filterMap, List.filterMap_congr hlabel, List.filterMap_some]

theorem nodup_labels (h : s.Consistent) : (s.toList.map Observation.label).Nodup :=
  h.labels_toList ▸ h.distinct

theorem mem_labels (h : s.Consistent) :
    label ∈ s.toList.map Observation.label ↔ s.data.contains label = true := by
  rw [h.labels_toList, h.mem_order_iff]

theorem get?_eq_find? (h : s.Consistent) (label : Label) :
    s.data.get? label = s.toList.find? fun o => o.label = label := by
  ext o
  rw [find?_key_eq_some_iff h.nodup_labels, h.mem_toList]
  constructor
  · intro ho
    rw [h.label_eq ho]
    exact ⟨ho, rfl⟩
  · rintro ⟨ho, rfl⟩
    exact ho

theorem get_eq (h : s.Consistent) (label : Label) : s.get label =
    ((s.toList.find? fun o => o.label = label).elim (.error (.missingFact label)) .ok :
      Except (Fault α) (Observation α)) := by
  rw [get, h.get?_eq_find?]
  cases s.toList.find? fun o => o.label = label <;> rfl

theorem contains_raw_iff (h : s.Consistent) (raw : String) : s.contains raw = true ↔
    ∃ label, Label.ofRaw raw = .ok label ∧ label ∈ s.toList.map Observation.label := by
  rw [contains]
  cases hraw : Label.ofRaw raw with
  | error fault => simp
  | ok label => simp [← h.mem_labels]

theorem size_eq (h : s.Consistent) : s.size = s.toList.length := by
  rw [size, Index.size_eq h.distinct h.mem_order_iff, ← h.labels_toList, List.length_map]

end Consistent

/-! ## Changes keep the agreement -/

theorem consistent_empty : (empty : IndexedFacts α).Consistent where
  distinct := List.nodup_nil
  mem_order_iff l := by simp [empty, Index.contains]
  held l o ho := by simp [empty] at ho

namespace Consistent

theorem withLast (h : s.Consistent) (hnew : s.data.contains new.label = false)
    (hfinite : Scalar.isFinite new.value = true) : (s.withLast new).Consistent where
  distinct := by
    have hlast : new.label ∉ s.order := by rw [h.mem_order_iff, hnew]; simp
    exact List.nodup_append.2 ⟨h.distinct, by simp, by
      intro l hl l' hl' heq
      rw [List.mem_singleton] at hl'
      exact hlast (hl' ▸ heq ▸ hl)⟩
  mem_order_iff l := by
    rw [order_withLast, List.mem_append, List.mem_singleton, h.mem_order_iff, Index.contains,
      Index.contains, get?_withLast]
    by_cases hl : l = new.label <;> simp [hl]
  held l o ho := by
    rw [get?_withLast] at ho
    split_ifs at ho with hl
    · obtain rfl := Option.some.inj ho
      exact ⟨hl.symm, hfinite⟩
    · exact h.held l o ho

theorem toList_withLast (h : s.Consistent) (hnew : s.data.contains new.label = false) :
    (s.withLast new).toList = s.toList ++ [new] := by
  have hold : s.order.filterMap (s.withLast new).data.get? = s.toList := by
    refine List.filterMap_congr fun l hl => ?_
    have hne : l ≠ new.label := by
      rintro rfl
      rw [h.mem_order_iff, hnew] at hl
      cases hl
    rw [get?_withLast, if_neg hne]
  have hlast : (s.withLast new).data.get? new.label = some new := by
    rw [get?_withLast, if_pos rfl]
  rw [toList, order_withLast, List.filterMap_append, hold, List.filterMap_cons_some hlast,
    List.filterMap_nil]

theorem withValue (h : s.Consistent) (hold : s.data.get? label = some old)
    (hfinite : Scalar.isFinite value = true) : (s.withValue label old value).Consistent where
  distinct := h.distinct
  mem_order_iff l := by
    rw [order_withValue, h.mem_order_iff, Index.contains, Index.contains, get?_withValue]
    by_cases hl : l = label <;> simp [hl, hold]
  held l o ho := by
    rw [get?_withValue] at ho
    split_ifs at ho with hl
    · obtain rfl := Option.some.inj ho
      exact ⟨(h.label_eq hold).trans hl.symm, hfinite⟩
    · exact h.held l o ho

theorem toList_withValue (h : s.Consistent) (hold : s.data.get? label = some old) :
    (s.withValue label old value).toList =
      s.toList.map fun o => if o.label = label then { o with value } else o := by
  rw [toList, toList, List.map_filterMap, order_withValue]
  refine List.filterMap_congr fun l hl => ?_
  obtain ⟨o, ho⟩ := Index.contains_iff.1 ((h.mem_order_iff l).1 hl)
  rw [get?_withValue, ho, Option.map_some, h.label_eq ho]
  by_cases hlabel : l = label
  · obtain rfl : old = o := Option.some.inj (hold.symm.trans (hlabel ▸ ho))
    rw [if_pos hlabel, if_pos hlabel, h.label_eq hold, hlabel]
  · rw [if_neg hlabel, if_neg hlabel]

theorem without (h : s.Consistent) (label : Label) : (s.without label).Consistent where
  distinct := h.distinct.filter _
  mem_order_iff l := by
    rw [order_without, List.mem_filter, h.mem_order_iff, Index.contains, Index.contains,
      get?_without]
    by_cases hl : l = label <;> simp [hl]
  held l o ho := by
    rw [get?_without] at ho
    split_ifs at ho
    exact h.held l o ho

theorem toList_without (h : s.Consistent) (label : Label) :
    (s.without label).toList = s.toList.filter fun o => o.label ≠ label := by
  rw [toList, toList, order_without, List.filterMap_filter, List.filter_filterMap]
  refine List.filterMap_congr fun l hl => ?_
  obtain ⟨o, ho⟩ := Index.contains_iff.1 ((h.mem_order_iff l).1 hl)
  rw [get?_without, ho, Option.filter_some, h.label_eq ho]
  by_cases hlabel : l = label <;> simp [hlabel]

end Consistent

/-! ## Runs -/

theorem Consistent.apply (h : s.Consistent) (change : FactChange α) :
    (s.apply change).Consistent := by
  cases change with
  | add raw value =>
      rw [IndexedFacts.apply]
      cases hnew : Observation.named raw value with
      | error fault => rwa [run_add_of_error hnew]
      | ok new =>
          cases hknown : s.data.contains new.label with
          | true => rwa [run_add_of_contains hnew hknown]
          | false =>
              rw [run_add_of_not_contains hnew hknown]
              exact h.withLast hknown (Observation.isFinite_of_named hnew)
  | update raw value =>
      rw [IndexedFacts.apply]
      cases hnew : Observation.named raw value with
      | error fault => rwa [run_update_of_error hnew]
      | ok new =>
          cases hknown : s.data.get? new.label with
          | none => rwa [run_update_of_none hnew hknown]
          | some old =>
              rw [run_update_of_some hnew hknown]
              exact h.withValue hknown (Observation.isFinite_of_named hnew)
  | remove raw =>
      rw [IndexedFacts.apply]
      cases hraw : Label.ofRaw raw with
      | error fault => rwa [run_remove?_of_error hraw]
      | ok label =>
          cases hknown : s.data.get? label with
          | none => rwa [run_remove?_of_none hraw hknown]
          | some old =>
              rw [run_remove?_of_some hraw hknown]
              exact h.without label
  | clear => exact consistent_empty

theorem Consistent.foldl (h : s.Consistent) (changes : List (FactChange α)) :
    (changes.foldl IndexedFacts.apply s).Consistent := by
  induction changes generalizing s with
  | nil => exact h
  | cons change changes ih => exact ih (h.apply change)

theorem consistent_run (changes : List (FactChange α)) : (run changes).Consistent :=
  consistent_empty.foldl changes

/-! ## Runs answer as lists -/

/-- Adding and updating a value as a list of observations would: the name is
checked first, the value next, and then whether the label is known.  A new label
goes to the end, the value of a known one is changed in its place, and all else
fails with the facts as they are. -/
def WritesAsList (s : IndexedFacts α) (raw : String) (value : α) : Prop :=
  match Label.ofRaw raw with
  | .error fault =>
      (add raw value).run s = .error (.badName fault) s ∧
      (update raw value).run s = .error (.badName fault) s
  | .ok label =>
      if Scalar.isFinite value = false then
        (add raw value).run s = .error (.notFinite value) s ∧
        (update raw value).run s = .error (.notFinite value) s
      else if label ∈ s.toList.map Observation.label then
        (add raw value).run s = .error (.duplicateFact label) s ∧
        ∃ s', (update raw value).run s = .ok () s' ∧
          s'.toList = s.toList.map fun o => if o.label = label then { o with value } else o
      else
        (update raw value).run s = .error (.missingFact label) s ∧
        ∃ s', (add raw value).run s = .ok () s' ∧ s'.toList = s.toList ++ [⟨label, value⟩]

/-- Removing as from a list of observations: that of a known label is returned
and the others stay in order, so that the label goes to the end when it is added
again.  All else finds nothing and leaves the facts as they are. -/
def RemovesAsList (s : IndexedFacts α) (raw : String) : Prop :=
  match Label.ofRaw raw with
  | .error _ => (remove? raw).run.run s = (none, s)
  | .ok label =>
      if label ∈ s.toList.map Observation.label then
        ∃ old s', s.get label = .ok old ∧ (remove? raw).run.run s = (some old, s') ∧
          (s'.toList = s.toList.filter fun o => o.label ≠ label) ∧
          ∀ value, Scalar.isFinite value = true →
            ∃ s'', (add raw value).run s' = .ok () s'' ∧ s''.toList = s'.toList ++ [⟨label, value⟩]
      else (remove? raw).run.run s = (none, s)

namespace Consistent

theorem not_mem_labels (h : s.Consistent) :
    label ∉ s.toList.map Observation.label ↔ s.data.contains label = false := by
  rw [h.mem_labels, Bool.not_eq_true]

theorem writesAsList (h : s.Consistent) (raw : String) (value : α) : s.WritesAsList raw value := by
  unfold WritesAsList
  cases hraw : Label.ofRaw raw with
  | error fault =>
      have hnew := Observation.named_of_error hraw value
      exact ⟨run_add_of_error hnew, run_update_of_error hnew⟩
  | ok label =>
      have hnew := Observation.named_of_ok hraw value
      dsimp only
      split_ifs with hfinite hknown
      · rw [hfinite, if_neg Bool.false_ne_true] at hnew
        exact ⟨run_add_of_error hnew, run_update_of_error hnew⟩
      all_goals rw [if_pos (by simpa using hfinite)] at hnew
      · rw [h.mem_labels] at hknown
        obtain ⟨old, hold⟩ := Index.contains_iff.1 hknown
        exact ⟨run_add_of_contains hnew hknown, _, run_update_of_some hnew hold,
          h.toList_withValue hold⟩
      · rw [h.not_mem_labels] at hknown
        have hnone : s.data.get? label = none := by simpa [Index.contains] using hknown
        exact ⟨run_update_of_none hnew hnone, _, run_add_of_not_contains hnew hknown,
          h.toList_withLast hknown⟩

theorem removesAsList (h : s.Consistent) (raw : String) : s.RemovesAsList raw := by
  unfold RemovesAsList
  cases hraw : Label.ofRaw raw with
  | error fault => exact run_remove?_of_error hraw
  | ok label =>
      dsimp only
      split_ifs with hknown
      · obtain ⟨old, hold⟩ := Index.contains_iff.1 (h.mem_labels.1 hknown)
        have hget : s.get label = .ok old := by rw [get, hold]
        refine ⟨old, _, hget, run_remove?_of_some hraw hold, h.toList_without label, ?_⟩
        intro value hfinite
        have hnew := Observation.named_of_ok hraw value
        rw [if_pos hfinite] at hnew
        have hgone : (s.without label).data.contains label = false := by
          rw [Index.contains, get?_without, if_pos rfl, Option.isSome_none]
        exact ⟨_, run_add_of_not_contains hnew hgone, (h.without label).toList_withLast hgone⟩
      · rw [h.not_mem_labels] at hknown
        exact run_remove?_of_none hraw (by simpa [Index.contains] using hknown)

end Consistent

/-- After every run of changes index and order hold the same labels, which are
distinct and folded, all values are finite, and the facts answer as the list of
their observations. -/
theorem run_answers_as_table (changes : List (FactChange α)) :
    let s : IndexedFacts α := run changes
    let labels := s.toList.map Observation.label
    (labels.Nodup ∧ ∀ o ∈ s.toList,
      Name.normalize o.label.text = o.label.text ∧ Scalar.isFinite o.value = true) ∧
    (s.order = labels ∧ ∀ label, s.data.contains label = true ↔ label ∈ labels) ∧
    (s.size = s.toList.length ∧ s.isEmpty = s.toList.isEmpty ∧
      (∀ raw, s.contains raw = true ↔ ∃ label, Label.ofRaw raw = .ok label ∧ label ∈ labels) ∧
      ∀ label, s.get label = ((s.toList.find? fun o => o.label = label).elim
        (.error (.missingFact label)) .ok : Except (Fault α) (Observation α))) ∧
    (∀ raw value, s.WritesAsList raw value) ∧ (∀ raw, s.RemovesAsList raw) ∧
    (s.apply .clear).toList = [] := by
  intro s labels
  have h : s.Consistent := consistent_run changes
  have hentry (o : Observation α) (ho : o ∈ s.toList) :
      Name.normalize o.label.text = o.label.text ∧ Scalar.isFinite o.value = true :=
    ⟨o.label.normalize_text, (h.held o.label o (h.mem_toList.1 ho)).2⟩
  have hisEmpty : s.isEmpty = s.toList.isEmpty := by
    rw [isEmpty, h.size_eq, Bool.eq_iff_iff, beq_iff_eq, List.length_eq_zero_iff,
      List.isEmpty_iff]
  exact ⟨⟨h.nodup_labels, hentry⟩, ⟨h.labels_toList.symm, fun label => h.mem_labels.symm⟩,
    ⟨h.size_eq, hisEmpty, h.contains_raw_iff, h.get_eq⟩, h.writesAsList, h.removesAsList, rfl⟩

/-- A second value under another spelling of the same name is refused, and a
label that is added again comes last. -/
example : ((run [.add "b" 2, .add " A" 1, .add "a" 3, .remove "B", .add "b" 4] :
    IndexedFacts Rat).toList.map fun o => (o.label.text, o.value)) = [("a", 1), ("b", 4)] := by
  decide +kernel

end IndexedFacts

end FuzzyInference
