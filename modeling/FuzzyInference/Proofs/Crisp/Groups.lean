import FuzzyInference.Crisp.Defuzzifier
import FuzzyInference.Proofs.Fallible

/-!
# Groups of one subject

What a defuzzifier says of the activations on one subject: a value for that
subject, or that nothing fired, or that the sets are of both kinds.
-/

namespace FuzzyInference

open Fallible

variable {α : Type} [Scalar α] {group : List (Activation α)} {s : Label}

/-! ## Subjects -/

theorem groupSubject_of_forall (hne : group ≠ []) (hs : ∀ a ∈ group, a.subject = s) :
    groupSubject group =
      if group.all fun a => a.strength.isZero then .error (.nothingFired s) else .ok s := by
  cases group with
  | nil => exact absurd rfl hne
  | cons first rest =>
      obtain ⟨rfl, hrest⟩ := List.forall_mem_cons.1 hs
      have hfind : (rest.find? fun a => a.subject ≠ first.subject) = none := by
        rw [List.find?_eq_none]
        intro a ha
        simp [hrest a ha]
      rw [groupSubject, hfind]

theorem groupSubject_eq_ok (h : groupSubject group = .ok s) : ∀ a ∈ group, a.subject = s := by
  cases group with
  | nil => cases h
  | cons first rest =>
      rw [groupSubject] at h
      split at h
      · cases h
      · next hfind =>
        split at h
        · cases h
        · cases h
          rw [List.find?_eq_none] at hfind
          exact List.forall_mem_cons.2 ⟨rfl, fun a ha => by simpa using hfind a ha⟩

theorem groupSubject_fires (h : groupSubject group = .ok s) :
    ∃ a ∈ group, ¬ a.strength.isZero = true := by
  cases group with
  | nil => cases h
  | cons first rest =>
      rw [groupSubject_of_forall (List.cons_ne_nil _ _) (groupSubject_eq_ok h)] at h
      split_ifs at h with hzero
      rw [List.all_eq_true] at hzero
      push Not at hzero
      exact hzero

/-- What is said of a group's subject, in terms of the subjects and the strengths
alone. -/
private theorem groupSubject_cons (first : Activation α) (rest : List (Activation α)) :
    groupSubject (first :: rest) =
      ((rest.map Activation.subject).find? fun s => s ≠ first.subject).elim
        (if ((first :: rest).map Activation.strength).all Degree.isZero then
          .error (.nothingFired first.subject)
        else .ok first.subject)
        fun other => .error (.mixedSubjects first.subject other) := by
  rw [groupSubject, List.find?_map, List.all_map]
  change _ = Option.elim ((rest.find? fun a => a.subject ≠ first.subject).map _) _ _
  cases rest.find? fun a => a.subject ≠ first.subject with
  | none => rfl
  | some other => rfl

theorem groupSubject_congr {group' : List (Activation α)}
    (hsubjects : group'.map Activation.subject = group.map Activation.subject)
    (hstrengths : group'.map Activation.strength = group.map Activation.strength) :
    groupSubject group' = groupSubject group := by
  cases group with
  | nil => rw [List.map_eq_nil_iff.1 hsubjects]
  | cons first rest =>
      cases group' with
      | nil => cases hsubjects
      | cons first' rest' =>
          obtain ⟨hfirst, hrest⟩ := List.cons.inj hsubjects
          rw [groupSubject_cons, groupSubject_cons, hstrengths, hrest, hfirst]

theorem groupDomain?_congr {group' : List (Activation α)}
    (h : (group'.map fun a => a.set.shape.isSingleton) =
      group.map fun a => a.set.shape.isSingleton) : groupDomain? group' = groupDomain? group := by
  have hall (g : List (Activation α)) : (g.all fun a => a.set.shape.isSingleton) =
      (g.map fun a => a.set.shape.isSingleton).all id := by
    rw [List.all_map]
    rfl
  have hany (g : List (Activation α)) : (g.any fun a => a.set.shape.isSingleton) =
      (g.map fun a => a.set.shape.isSingleton).any id := by
    rw [List.any_map]
    rfl
  rw [groupDomain?, groupDomain?, hall, hall, hany, hany, h]

theorem groupDomain?_eq_none_iff : groupDomain? group = none ↔
    (∃ a ∈ group, a.set.shape.isSingleton = true) ∧
      ∃ a ∈ group, ¬ a.set.shape.isSingleton = true := by
  have hall : (group.all fun a => a.set.shape.isSingleton) = true ↔
      ¬ ∃ a ∈ group, ¬ a.set.shape.isSingleton = true := by
    simp
  unfold groupDomain?
  split_ifs with hsingletons hsome
  · exact iff_of_false nofun fun h => hall.1 hsingletons h.2
  · exact iff_of_true rfl ⟨List.any_eq_true.1 hsome, not_not.1 (mt hall.2 hsingletons)⟩
  · exact iff_of_false nofun fun h => hsome (List.any_eq_true.2 h.1)

theorem not_isSingleton_of_mem (h : groupDomain? group = some .continuous) {a : Activation α}
    (ha : a ∈ group) : a.set.shape.isSingleton = false := by
  by_contra hsingleton
  have hany : (group.any fun a => a.set.shape.isSingleton) = true :=
    List.any_eq_true.2 ⟨a, ha, Bool.not_eq_false _ ▸ hsingleton⟩
  rw [groupDomain?, if_pos hany] at h
  split at h <;> cases h

/-! ## Outcomes -/

def Outcome.ofValue? {α : Type} (s : Label) : Option α → Except (Fault α) (Outcome α)
  | some value => .ok ⟨s, value⟩
  | none => .error (.nothingFired s)

/-- The number that a method reads off a merged curve, unless that is flat. -/
def Method.value? (method : Method) (domain : Domain) (curve : List (Corner α)) : Option α :=
  if curve.all fun p => p.y == 0 then none else method.read? domain curve

namespace Defuzzifier

def outcomeOn (d : Defuzzifier) (group : List (Activation α)) (s : Label) :
    Except (Fault α) (Outcome α) :=
  match d with
  | merging method =>
      match groupDomain? group with
      | some domain => Outcome.ofValue? s (method.value? domain (Aggregate.curve domain group))
      | none => .error (.mixedKinds s)
  | weightedAverage =>
      Outcome.ofValue? s (weightedMean? (group.map fun a => (a.set.centroid, a.strength.value)))

theorem defuzzify_eq (d : Defuzzifier) (group : List (Activation α)) :
    d.defuzzify group = groupSubject group >>= d.outcomeOn group := by
  cases d with
  | merging method =>
      rw [defuzzify, Method.defuzzify]
      congr 1
      funext s
      rw [outcomeOn]
      cases groupDomain? group with
      | none => rfl
      | some domain =>
          simp only [Method.value?]
          split_ifs
          · rfl
          · cases method.read? domain (Aggregate.curve domain group) with
            | none => rfl
            | some value => rfl
  | weightedAverage =>
      rw [defuzzify, averageCentroid]
      congr 1
      funext s
      simp only [outcomeOn]
      cases weightedMean? (group.map fun a => (a.set.centroid, a.strength.value)) with
      | none => rfl
      | some value => rfl

/-- What a merging defuzzifier needs in order to give a value. -/
theorem merging_eq_ok_iff {method : Method} {o : Outcome α} :
    (merging method).defuzzify group = .ok o ↔
      groupSubject group = .ok o.subject ∧ ∃ domain, groupDomain? group = some domain ∧
        (∃ p ∈ Aggregate.curve domain group, ¬ (p.y == 0) = true) ∧
        method.read? domain (Aggregate.curve domain group) = some o.value := by
  have hofValue (s : Label) (x? : Option α) :
      Outcome.ofValue? s x? = .ok o ↔ s = o.subject ∧ x? = some o.value := by
    obtain ⟨subject, value⟩ := o
    cases x? <;> simp [Outcome.ofValue?]
  have hvalue (domain : Domain) (curve : List (Corner α)) :
      method.value? domain curve = some o.value ↔
        (∃ p ∈ curve, ¬ (p.y == 0) = true) ∧ method.read? domain curve = some o.value := by
    have hflat : (curve.all fun p => p.y == 0) = true ↔
        ¬ ∃ p ∈ curve, ¬ (p.y == 0) = true := by
      simp
    rw [Method.value?]
    split_ifs with hall
    · exact iff_of_false nofun fun h => hflat.1 hall h.1
    · exact (and_iff_right (not_not.1 (mt hflat.2 hall))).symm
  rw [defuzzify_eq, bind_eq_ok]
  constructor
  · rintro ⟨s, hs, ho⟩
    rw [outcomeOn] at ho
    cases hdomain : groupDomain? group with
    | none =>
        rw [hdomain] at ho
        cases ho
    | some domain =>
        rw [hdomain] at ho
        obtain ⟨rfl, hread⟩ := (hofValue s _).1 ho
        exact ⟨hs, domain, rfl, (hvalue domain _).1 hread⟩
  · rintro ⟨hs, domain, hdomain, hread⟩
    refine ⟨o.subject, hs, ?_⟩
    rw [outcomeOn, hdomain]
    exact (hofValue _ _).2 ⟨rfl, (hvalue domain _).2 hread⟩

theorem merging_eq_ok {method : Method} {domain : Domain} {v : α}
    (hsubject : groupSubject group = .ok s) (hdomain : groupDomain? group = some domain)
    (hrises : ∃ p ∈ Aggregate.curve domain group, ¬ (p.y == 0) = true)
    (hread : method.read? domain (Aggregate.curve domain group) = some v) :
    method.defuzzify group = .ok ⟨s, v⟩ :=
  (merging_eq_ok_iff (o := ⟨s, v⟩)).2 ⟨hsubject, domain, hdomain, hrises, hread⟩

theorem subject_of_outcomeOn {d : Defuzzifier} {o : Outcome α} (h : d.outcomeOn group s = .ok o) :
    o.subject = s := by
  unfold outcomeOn Outcome.ofValue? at h
  split at h
  · split at h
    · split at h <;> cases h
      rfl
    · cases h
  · split at h <;> cases h
    rfl

theorem fault_of_outcomeOn {d : Defuzzifier} {f : Fault α}
    (h : d.outcomeOn group s = .error f) : f = .nothingFired s ∨ f = .mixedKinds s := by
  unfold outcomeOn Outcome.ofValue? at h
  split at h
  · split at h
    · split at h <;> cases h
      exact .inl rfl
    · cases h
      exact .inr rfl
  · split at h <;> cases h
    exact .inl rfl

theorem subject_of_defuzzify {d : Defuzzifier} {o : Outcome α} (h : d.defuzzify group = .ok o) :
    ∀ a ∈ group, a.subject = o.subject := by
  rw [defuzzify_eq, bind_eq_ok] at h
  obtain ⟨s, hs, ho⟩ := h
  rw [subject_of_outcomeOn ho]
  exact groupSubject_eq_ok hs

theorem fault_of_defuzzify {d : Defuzzifier} {f : Fault α} (h : d.defuzzify group = .error f)
    (hne : group ≠ []) (hs : ∀ a ∈ group, a.subject = s) :
    f = .nothingFired s ∨ f = .mixedKinds s := by
  rw [defuzzify_eq, groupSubject_of_forall hne hs] at h
  split_ifs at h
  · cases h
    exact .inl rfl
  · exact fault_of_outcomeOn h

end Defuzzifier

end FuzzyInference
