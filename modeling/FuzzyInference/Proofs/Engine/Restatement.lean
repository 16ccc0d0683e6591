import FuzzyInference.Proofs.Crisp.Merging
import FuzzyInference.Proofs.Engine.Strength
import FuzzyInference.Proofs.Engine.Subjects

/-!
# Rules in another order

An engine that merges curves gives every subject the same value whatever order
its rules are in and however often each of them is stated.  Rules are evaluated
alike on the same facts, so what they conclude on a subject makes groups that
cover each other.
-/

namespace FuzzyInference

open Scalar Binary Fallible

/-! ## Facts -/

def Facts.Same (facts facts' : Facts Float) : Prop :=
  ∀ s, Option.Rel Scalar.Same ((facts.find? s).map Fact.value) ((facts'.find? s).map Fact.value)

theorem Facts.get_eq (facts : Facts Float) (s : Label) :
    facts.get s = ((facts.find? s).map Fact.value).elim (.error (.missingFact s)) .ok := by
  unfold Facts.get
  cases facts.find? s with
  | none => rfl
  | some fact => rfl

namespace Facts.Same

variable {facts facts' : Facts Float}

theorem symm (h : facts.Same facts') : facts'.Same facts := by
  intro s
  have hs := h s
  generalize (facts.find? s).map Fact.value = x?, (facts'.find? s).map Fact.value = y? at hs ⊢
  cases hs with
  | none => exact .none
  | some hxy => exact .some hxy.symm

theorem get_agree (h : facts.Same facts') (s : Label) :
    Agree (fun x y => ¬ IsNaN x ∧ Scalar.Same x y) (facts.get s) (facts'.get s) := by
  have hs := h s
  have hnan : ∀ x, (facts.find? s).map Fact.value = some x → ¬ IsNaN x := by
    intro x hx
    obtain ⟨fact, -, rfl⟩ := Option.map_eq_some_iff.1 hx
    obtain ⟨q, hq⟩ := isFinite_iff.1 fact.finite
    exact hq.not_isNaN
  rw [get_eq, get_eq]
  generalize (facts.find? s).map Fact.value = x?, (facts'.find? s).map Fact.value = y? at hs hnan ⊢
  cases hs with
  | none => exact .error _
  | some hxy => exact .ok ⟨hnan _ rfl, hxy⟩

end Facts.Same

/-! ## Rules on the same facts -/

section Rules

variable {facts facts' : Facts Float}

theorem Proposition.evaluate_agree (p : Proposition Float) (h : facts.Same facts') :
    Agree Degree.Same (p.evaluate facts) (p.evaluate facts') := by
  refine (h.get_agree p.subject).bind fun x y hxy => .ok ?_
  have hmembership : (p.set.membership x).Same (p.set.membership y) :=
    (Shape.Same.refl p.set.shape).membership hxy.1 hxy.2
  cases p.copula with
  | is => exact hmembership
  | isNot => exact Degree.Same.nearest ((Scalar.Same.refl 1).sub hmembership)

theorem Condition.evaluate_agree (c : Condition Float) (h : facts.Same facts')
    (algebra : Algebra) :
    Agree Degree.Same (c.evaluate facts algebra) (c.evaluate facts' algebra) := by
  refine Condition.evaluate_related algebra.keeps_same ?_ ?_ (Degree.Same.refl _)
  · intro _ _ _ _ ha hb
    exact Degree.Same.nearest (Scalar.Same.mul ha hb)
  · exact List.forall₂_same.2 fun p _ => ⟨rfl, p.proposition.evaluate_agree h⟩

theorem Rule.firingStrength_agree (rule : Rule Float) (h : facts.Same facts')
    (algebra : Algebra) :
    Agree Degree.Same (rule.firingStrength facts algebra) (rule.firingStrength facts' algebra) :=
  Rule.firingStrength_related algebra.keeps_same
    (List.forall₂_same.2 fun c _ => ⟨rfl, c.evaluate_agree h algebra⟩)

end Rules

namespace Engine

def RulesIn (e f : Engine Float) : Prop :=
  ∀ rule ∈ e.rules.toList, ∃ rule' ∈ f.rules.toList,
    rule'.conditions = rule.conditions ∧ rule'.conclusions = rule.conclusions

/-- Engines that merge by one method and whose rules say the same of the same
facts, in any order and any number of times. -/
structure Restates (method : Method) (e f : Engine Float) : Prop where
  algebra : e.algebra = f.algebra
  merges : e.defuzzifier = .merging method
  merges' : f.defuzzifier = .merging method
  facts : e.facts.Same f.facts
  covered : e.RulesIn f
  covers : f.RulesIn e

variable {method : Method} {e f : Engine Float}

theorem Restates.symm (h : Restates method e f) : Restates method f e :=
  ⟨h.algebra.symm, h.merges', h.merges, h.facts.symm, h.covers, h.covered⟩

theorem rulesIn_of_perm (h : e.rules.toList.Perm f.rules.toList) : e.RulesIn f :=
  fun rule hrule => ⟨rule, h.mem_iff.1 hrule, rfl, rfl⟩

namespace Restates

theorem strength_agree (h : Restates method e f) {rule rule' : Rule Float}
    (hconditions : rule'.conditions = rule.conditions) :
    Agree Degree.Same (rule.firingStrength e.facts e.algebra)
      (rule'.firingStrength f.facts f.algebra) := by
  have hstrength : rule'.firingStrength f.facts f.algebra =
      rule.firingStrength f.facts e.algebra := by
    rw [Rule.firingStrength, hconditions, ← h.algebra]
    rfl
  rw [hstrength]
  exact rule.firingStrength_agree h.facts e.algebra

theorem coveredBy (h : Restates method e f) {activations activations' : List (Activation Float)}
    (hrules : e.evaluateRules = .ok activations) (hrules' : f.evaluateRules = .ok activations')
    (s : Label) : CoveredBy (activationsOn activations s) (activationsOn activations' s) := by
  intro a ha
  obtain ⟨hmem, hs⟩ := mem_activationsOn.1 ha
  obtain ⟨rule, hrule, strength, hstrength, hcontribution⟩ := (mem_activations hrules).1 hmem
  obtain ⟨c, hc, rfl⟩ := List.mem_map.1 hcontribution
  obtain ⟨rule', hrule', hconditions, hconclusions⟩ := h.covered rule hrule
  obtain ⟨strength', hstrength', hsame⟩ := (h.strength_agree hconditions).exists_ok hstrength
  have hmem' : ⟨c.subject, c.proposition.set, strength'⟩ ∈ activations' :=
    (mem_activations hrules').2 ⟨rule', hrule', strength', hstrength',
      List.mem_map.2 ⟨c, hconclusions ▸ hc, rfl⟩⟩
  exact ⟨_, mem_activationsOn.2 ⟨hmem', hs⟩, .refl _, Degree.le_iff_level.2 hsame.level_eq.le⟩

theorem interchangeable (h : Restates method e f)
    {activations activations' : List (Activation Float)}
    (hrules : e.evaluateRules = .ok activations) (hrules' : f.evaluateRules = .ok activations')
    (s : Label) : Interchangeable (activationsOn activations s) (activationsOn activations' s) :=
  ⟨h.coveredBy hrules hrules' s, h.symm.coveredBy hrules' hrules s⟩

theorem exists_activations (h : Restates method e f) {activations : List (Activation Float)}
    (hrules : e.evaluateRules = .ok activations) :
    ∃ activations', f.evaluateRules = .ok activations' := by
  rw [exists_activations_iff]
  intro rule' hrule'
  obtain ⟨rule, hrule, hconditions, -⟩ := h.covers rule' hrule'
  obtain ⟨strength, hstrength⟩ := exists_activations_iff.1 ⟨_, hrules⟩ rule hrule
  obtain ⟨strength', hstrength', -⟩ := (h.strength_agree hconditions.symm).exists_ok hstrength
  exact ⟨strength', hstrength'⟩

theorem mem_subjects_iff (h : Restates method e f)
    {activations activations' : List (Activation Float)}
    (hrules : e.evaluateRules = .ok activations) (hrules' : f.evaluateRules = .ok activations')
    (s : Label) : s ∈ subjects activations ↔ s ∈ subjects activations' := by
  have hgroups := h.interchangeable hrules hrules' s
  constructor
  · intro hs
    obtain ⟨a, ha, has⟩ := mem_subjects.1 hs
    obtain ⟨b, hb, -⟩ := hgroups.covered a (mem_activationsOn.2 ⟨ha, has⟩)
    exact mem_subjects.2 ⟨b, mem_activationsOn.1 hb⟩
  · intro hs
    obtain ⟨b, hb, hbs⟩ := mem_subjects.1 hs
    obtain ⟨a, ha, -⟩ := hgroups.covers b (mem_activationsOn.2 ⟨hb, hbs⟩)
    exact mem_subjects.2 ⟨a, mem_activationsOn.1 ha⟩

theorem defuzzify_agree (h : Restates method e f)
    {activations activations' : List (Activation Float)}
    (hrules : e.evaluateRules = .ok activations) (hrules' : f.evaluateRules = .ok activations')
    (s : Label) : Agree Outcome.Same (e.defuzzifier.defuzzify (activationsOn activations s))
      (f.defuzzifier.defuzzify (activationsOn activations' s)) := by
  rw [h.merges, h.merges']
  exact (h.interchangeable hrules hrules' s).defuzzify_agree
    (fun _ ha => (mem_activationsOn.1 ha).2) (fun _ hb => (mem_activationsOn.1 hb).2) method

theorem exists_outcomes (h : Restates method e f) {o : Outcomes Float} (ho : e.execute = .ok o) :
    ∃ p, f.execute = .ok p := by
  obtain ⟨activations, hrules, hall⟩ := execute_eq_ok_iff.1 ho
  obtain ⟨activations', hrules'⟩ := h.exists_activations hrules
  have hvalues : ∀ s ∈ subjects activations', ∃ p,
      f.defuzzifier.defuzzify (activationsOn activations' s) = .ok p := by
    intro s hs
    obtain ⟨o, -, hvalue⟩ :=
      exists_mem_of_forall₂ hall ((h.mem_subjects_iff hrules hrules' s).2 hs)
    obtain ⟨p, hp, -⟩ := (h.defuzzify_agree hrules hrules' s).exists_ok hvalue
    exact ⟨p, hp⟩
  obtain ⟨outcomes, houtcomes⟩ := exists_mapM hvalues
  exact ⟨⟨outcomes⟩, execute_eq_ok_iff.2 ⟨activations', hrules', mapM_eq_ok_iff.1 houtcomes⟩⟩

theorem find?_same (h : Restates method e f) {o p : Outcomes Float} (ho : e.execute = .ok o)
    (hp : f.execute = .ok p) (s : Label) : Option.Rel Same (o.find? s) (p.find? s) := by
  obtain ⟨activations, hrules, -⟩ := execute_eq_ok_iff.1 ho
  obtain ⟨activations', hrules', -⟩ := execute_eq_ok_iff.1 hp
  obtain ⟨-, hfound, hmissing⟩ := find?_of_execute hrules ho
  obtain ⟨-, hfound', hmissing'⟩ := find?_of_execute hrules' hp
  have hsubject := h.mem_subjects_iff hrules hrules' s
  by_cases hs : s ∈ subjects activations
  · obtain ⟨x, hx, -, hfind⟩ := hfound s hs
    obtain ⟨y, hy, -, hfind'⟩ := hfound' s (hsubject.1 hs)
    obtain ⟨q, hq, hsame⟩ := (h.defuzzify_agree hrules hrules' s).exists_ok hx
    obtain rfl : q = ⟨s, y⟩ := Except.ok.inj (hq.symm.trans hy)
    rw [hfind, hfind']
    exact .some hsame.value
  · rw [hmissing s hs, hmissing' s (mt hsubject.2 hs)]
    exact .none

end Restates

end Engine

open Engine in
/-- An engine that merges curves has the same values whatever order its rules
are in and however often they are stated, and so has a group: all that counts
of it is how strongly each shape is concluded at most.  Two conclusions of one
shape can be made one, as strong as the stronger. -/
theorem Method.indifferent_to_order (method : Method) :
    (∀ e f : Engine Float, e.algebra = f.algebra →
      e.defuzzifier = .merging method → f.defuzzifier = .merging method → e.facts.Same f.facts →
      e.rules.toList.Perm f.rules.toList ∨ (e.RulesIn f ∧ f.RulesIn e) →
      ((∃ o, e.execute = .ok o) ↔ ∃ p, f.execute = .ok p) ∧
        ∀ o p, e.execute = .ok o → f.execute = .ok p →
          ∀ s, Option.Rel Same (o.find? s) (p.find? s)) ∧
    ∀ (s : Label) (g : List (Activation Float)), (∀ a ∈ g, a.subject = s) →
      (∀ h : List (Activation Float), (∀ a ∈ h, a.subject = s) →
        (∀ shape, Option.Rel Same (strongest? g shape) (strongest? h shape)) →
        Agree Outcome.Same (method.defuzzify g) (method.defuzzify h)) ∧
      (∀ h, g.Perm h → Agree Outcome.Same (method.defuzzify g) (method.defuzzify h)) ∧
      (∀ a ∈ g, Agree Outcome.Same (method.defuzzify g) (method.defuzzify (a :: g))) ∧
      ∀ a b c rest, g.Perm (a :: b :: rest) → (a.set.shape == c.set.shape) = true →
        (b.set.shape == c.set.shape) = true → c.strength = max a.strength b.strength →
        c.subject = s → Agree Outcome.Same (method.defuzzify g) (method.defuzzify (c :: rest)) := by
  refine ⟨fun e f halgebra hmerges hmerges' hfacts hrules => ?_, fun s g hg => ⟨?_, ?_, ?_, ?_⟩⟩
  · have hboth : e.RulesIn f ∧ f.RulesIn e := by
      rcases hrules with hperm | hboth
      · exact ⟨rulesIn_of_perm hperm, rulesIn_of_perm hperm.symm⟩
      · exact hboth
    have h : Restates method e f := ⟨halgebra, hmerges, hmerges', hfacts, hboth.1, hboth.2⟩
    exact ⟨⟨fun ⟨_, ho⟩ => h.exists_outcomes ho, fun ⟨_, hp⟩ => h.symm.exists_outcomes hp⟩,
      fun _ _ => h.find?_same⟩
  · intro h hh hsame
    exact (interchangeable_of_strongest? hsame).defuzzify_agree hg hh method
  · intro h hperm
    have hh : ∀ a ∈ h, a.subject = s := fun a ha => hg a (hperm.mem_iff.2 ha)
    exact (interchangeable_of_mem_iff fun _ => hperm.mem_iff).defuzzify_agree hg hh method
  · intro a ha
    have hmem : ∀ b, b ∈ g ↔ b ∈ a :: g := by
      intro b
      rw [List.mem_cons]
      exact ⟨.inr, fun hb => hb.elim (fun heq => heq ▸ ha) id⟩
    have hh : ∀ b ∈ a :: g, b.subject = s := fun b hb => hg b ((hmem b).2 hb)
    exact (interchangeable_of_mem_iff hmem).defuzzify_agree hg hh method
  · intro a b c rest hperm ha hb hstrength hc
    have hrest : ∀ d ∈ c :: rest, d.subject = s := by
      rw [List.forall_mem_cons]
      exact ⟨hc, fun d hd => hg d (hperm.mem_iff.2 (by simp [hd]))⟩
    exact (interchangeable_of_union hperm ha hb hstrength).defuzzify_agree hg hrest method

end FuzzyInference
