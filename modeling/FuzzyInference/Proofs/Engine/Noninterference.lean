import FuzzyInference.Proofs.Engine.Refusals
import FuzzyInference.Proofs.Store.Lists
import Mathlib.Logic.Relation

/-!
# Subjects do not interfere

The value of a subject comes from the rules that conclude on it and from the
facts that those ask for.  Whatever else an engine knows, before, between or
after them, takes no part in it.
-/

namespace FuzzyInference

open Fallible

variable {α : Type} [Scalar α]

/-! ## What a rule contributes to one subject -/

namespace Rule

def conclusionsOn (rule : Rule α) (s : Label) : List (Conclusion α) :=
  rule.conclusions.filter fun c => c.subject = s

def concludesOn (rule : Rule α) (s : Label) : Bool := rule.conclusions.any fun c => c.subject = s

def evaluateOn (s : Label) (facts : Facts α) (algebra : Algebra) (rule : Rule α) :
    Except (Fault α) (List (Activation α)) := do
  let strength ← rule.firingStrength facts algebra
  return (rule.conclusionsOn s).map fun c => ⟨c.subject, c.proposition.set, strength⟩

/-- A rule up to its label and its conclusions on other subjects. -/
def partOn (s : Label) (rule : Rule α) : List (Condition α) × List (Conclusion α) :=
  (rule.conditions, rule.conclusionsOn s)

theorem activationsOn_contributions (rule : Rule α) (strength : Degree α) (s : Label) :
    activationsOn (rule.contributions strength) s =
      (rule.conclusionsOn s).map fun c => ⟨c.subject, c.proposition.set, strength⟩ := by
  rw [activationsOn, contributions, List.filter_map]
  rfl

theorem conclusionsOn_eq_nil {rule : Rule α} {s : Label} (h : rule.concludesOn s = false) :
    rule.conclusionsOn s = [] := by
  simpa [concludesOn, conclusionsOn] using h

end Rule

theorem mem_subjects_iff_activationsOn {activations : List (Activation α)} {s : Label} :
    s ∈ subjects activations ↔ activationsOn activations s ≠ [] := by
  refine ⟨activationsOn_ne_nil, fun h => ?_⟩
  obtain ⟨a, ha⟩ := List.exists_mem_of_ne_nil _ h
  exact mem_subjects.2 ⟨a, mem_activationsOn.1 ha⟩

/-! ## Facts that are asked for -/

section Asked

variable {facts facts' : Facts α}

theorem Proposition.evaluate_congr {p : Proposition α}
    (h : facts.get p.subject = facts'.get p.subject) : p.evaluate facts = p.evaluate facts' := by
  rw [Proposition.evaluate, Proposition.evaluate, h]

theorem Condition.evaluate_congr {c : Condition α}
    (h : ∀ t ∈ c.subjects, facts.get t = facts'.get t) (algebra : Algebra) :
    c.evaluate facts algebra = c.evaluate facts' algebra := by
  have hpremises : (c.premises.mapM fun p => p.evaluate facts) =
      c.premises.mapM fun p => p.evaluate facts' := by
    refine mapM_congr_of_forall₂ (List.forall₂_same.2 fun p hp => ?_)
    have hp := Proposition.evaluate_congr (h p.proposition.subject (List.mem_map_of_mem hp))
    rw [Premise.evaluate, Premise.evaluate, hp]
  rw [Condition.evaluate, Condition.evaluate, hpremises]

/-- How strongly a rule fires depends on the facts that it asks for. -/
theorem Rule.firingStrength_congr {rule : Rule α}
    (h : ∀ t ∈ rule.premiseSubjects, facts.get t = facts'.get t) (algebra : Algebra) :
    rule.firingStrength facts algebra = rule.firingStrength facts' algebra := by
  have hconditions : (rule.conditions.mapM fun c => do
        return Clause.mk c.connective (← c.evaluate facts algebra)) =
      rule.conditions.mapM fun c => do
        return Clause.mk c.connective (← c.evaluate facts' algebra) := by
    refine mapM_congr_of_forall₂ (List.forall₂_same.2 fun c hc => ?_)
    have hc := c.evaluate_congr (fun t ht => h t (List.mem_flatMap.2 ⟨c, hc, ht⟩)) algebra
    rw [hc]
  rw [Rule.firingStrength, Rule.firingStrength, hconditions]

theorem Rule.evaluateOn_congr {rule rule' : Rule α} {s : Label}
    (hpart : rule.partOn s = rule'.partOn s)
    (hfacts : ∀ t ∈ rule.premiseSubjects, facts.get t = facts'.get t) (algebra : Algebra) :
    rule.evaluateOn s facts algebra = rule'.evaluateOn s facts' algebra := by
  obtain ⟨hconditions, hconclusions⟩ := Prod.mk.inj hpart
  have hstrength : rule.firingStrength facts' algebra = rule'.firingStrength facts' algebra := by
    rw [Rule.firingStrength, Rule.firingStrength, hconditions]
  rw [Rule.evaluateOn, Rule.evaluateOn, rule.firingStrength_congr hfacts, hstrength, hconclusions]

end Asked

/-! ## What the rules contribute to one subject -/

namespace Engine

def rulesOn (engine : Engine α) (s : Label) : List (Rule α) :=
  engine.rules.toList.filter fun rule => rule.concludesOn s

def askedFor (engine : Engine α) (s : Label) : List Label :=
  (engine.rulesOn s).flatMap Rule.premiseSubjects

/-- Two engines that agree on what a subject depends on. -/
structure AlikeOn (s : Label) (e f : Engine α) : Prop where
  algebra : e.algebra = f.algebra
  defuzzifier : e.defuzzifier = f.defuzzifier
  rules : (e.rulesOn s).map (Rule.partOn s) = (f.rulesOn s).map (Rule.partOn s)
  facts : ∀ t ∈ e.askedFor s, e.facts.get t = f.facts.get t

/-- The other rules add nothing to what is concluded on a subject. -/
theorem activationsOn_flatten {facts : Facts α} {algebra : Algebra} {rules : List (Rule α)}
    {contributions : List (List (Activation α))}
    (h : List.Forall₂ (fun rule contribution => ∃ strength,
      rule.firingStrength facts algebra = .ok strength ∧
        contribution = rule.contributions strength) rules contributions) (s : Label) :
    ∃ own, (rules.filter fun rule => rule.concludesOn s).mapM
        (Rule.evaluateOn s facts algebra) = .ok own ∧
      activationsOn contributions.flatten s = own.flatten := by
  induction h with
  | nil => exact ⟨[], rfl, rfl⟩
  | @cons rule _ rules _ hrule _ ih =>
      obtain ⟨strength, hstrength, rfl⟩ := hrule
      obtain ⟨own, hown, hflatten⟩ := ih
      rw [List.flatten_cons, activationsOn, List.filter_append, ← activationsOn, ← activationsOn,
        hflatten, rule.activationsOn_contributions]
      -- a rule on other subjects is left out on one side and adds nothing on the other
      cases hconcludes : rule.concludesOn s with
      | false =>
          rw [List.filter_cons, if_neg (by simp [hconcludes]), Rule.conclusionsOn_eq_nil hconcludes]
          exact ⟨own, hown, rfl⟩
      | true =>
          rw [List.filter_cons, if_pos hconcludes, List.mapM_cons, Rule.evaluateOn, hstrength]
          exact ⟨_, bind_eq_ok.2 ⟨_, rfl, bind_eq_ok.2 ⟨own, hown, rfl⟩⟩, rfl⟩

theorem activationsOn_evaluateRules {engine : Engine α} {activations : List (Activation α)}
    (h : engine.evaluateRules = .ok activations) (s : Label) :
    ∃ own, (engine.rulesOn s).mapM (Rule.evaluateOn s engine.facts engine.algebra) = .ok own ∧
      activationsOn activations s = own.flatten := by
  obtain ⟨contributions, hall, rfl⟩ := evaluateRules_eq_ok_iff.1 h
  exact activationsOn_flatten hall s

namespace AlikeOn

variable {s : Label} {e f g : Engine α}

theorem activationsOn_eq (h : e.AlikeOn s f) {activations activations' : List (Activation α)}
    (he : e.evaluateRules = .ok activations) (hf : f.evaluateRules = .ok activations') :
    activationsOn activations s = activationsOn activations' s := by
  obtain ⟨own, hown, hactivations⟩ := activationsOn_evaluateRules he s
  obtain ⟨own', hown', hactivations'⟩ := activationsOn_evaluateRules hf s
  have hrules : (e.rulesOn s).mapM (Rule.evaluateOn s e.facts e.algebra) =
      (f.rulesOn s).mapM (Rule.evaluateOn s f.facts f.algebra) := by
    have hparts : List.Forall₂ (fun rule rule' => rule.partOn s = rule'.partOn s)
        (e.rulesOn s) (f.rulesOn s) := by
      have hequal := List.forall₂_eq_eq_eq ▸ h.rules
      exact List.forall₂_map_left_iff.1 (List.forall₂_map_right_iff.1 hequal)
    have hboth := (List.forall₂_and_left _ _).2 ⟨fun rule hrule => hrule, hparts⟩
    refine mapM_congr_of_forall₂ (hboth.imp fun rule rule' ⟨hrule, hpart⟩ => ?_)
    rw [← h.algebra]
    exact Rule.evaluateOn_congr hpart
      (fun t ht => h.facts t (List.mem_flatMap.2 ⟨rule, hrule, ht⟩)) _
  rw [hown, hown', Except.ok.injEq] at hrules
  rw [hactivations, hactivations', hrules]

theorem find?_eq (h : e.AlikeOn s f) {o p : Outcomes α} (ho : e.execute = .ok o)
    (hp : f.execute = .ok p) : o.find? s = p.find? s := by
  obtain ⟨activations, he, -⟩ := execute_eq_ok_iff.1 ho
  obtain ⟨activations', hf, -⟩ := execute_eq_ok_iff.1 hp
  have hown := h.activationsOn_eq he hf
  obtain ⟨-, hvalue, hnone⟩ := find?_of_execute he ho
  obtain ⟨-, hvalue', hnone'⟩ := find?_of_execute hf hp
  have hsubjects : s ∈ subjects activations ↔ s ∈ subjects activations' := by
    rw [mem_subjects_iff_activationsOn, mem_subjects_iff_activationsOn, hown]
  by_cases hs : s ∈ subjects activations
  · obtain ⟨x, hx, -, hfind⟩ := hvalue s hs
    obtain ⟨y, hy, -, hfind'⟩ := hvalue' s (hsubjects.1 hs)
    rw [hown, h.defuzzifier, hy] at hx
    cases hx
    rw [hfind, hfind']
  · rw [hnone s hs, hnone' s fun hs' => hs (hsubjects.2 hs')]

end AlikeOn

/-! ## Changes that a subject does not notice -/

/-- A change of facts that no rule on the subject asks for, or of a rule that
concludes on other subjects only. -/
inductive Unnoticed (s : Label) : Engine α → Engine α → Prop
  | addFact {e : Engine α} {raw : String} {value : α} {facts : Facts α}
      (h : e.facts.add raw value = .ok facts) (hs : ∀ t ∈ e.askedFor s, Label.ofRaw raw ≠ .ok t) :
      Unnoticed s e { e with facts }
  | updateFact {e : Engine α} {raw : String} {value : α} {facts : Facts α}
      (h : e.facts.update raw value = .ok facts)
      (hs : ∀ t ∈ e.askedFor s, Label.ofRaw raw ≠ .ok t) : Unnoticed s e { e with facts }
  | removeFact {e : Engine α} {raw : String} {old : Fact α} {facts : Facts α}
      (h : e.facts.remove? raw = some (old, facts))
      (hs : ∀ t ∈ e.askedFor s, Label.ofRaw raw ≠ .ok t) : Unnoticed s e { e with facts }
  | addRule {e : Engine α} {rule : Rule α} {key : RuleKey} {rules : Rulebook α}
      (h : e.rules.add rule = .ok (key, rules)) (hs : rule.concludesOn s = false) :
      Unnoticed s e { e with rules }
  | removeRule {e : Engine α} {label : Label} {rule : Rule α} {rules : Rulebook α}
      (h : e.rules.remove label = .ok (rule, rules)) (hs : rule.concludesOn s = false) :
      Unnoticed s e { e with rules }

namespace AlikeOn

variable {s : Label} {e f g : Engine α}

theorem of_facts {facts : Facts α} (h : ∀ t ∈ e.askedFor s, facts.find? t = e.facts.find? t) :
    e.AlikeOn s { e with facts } where
  algebra := rfl
  defuzzifier := rfl
  rules := rfl
  facts t ht := by rw [Facts.get, Facts.get, h t ht]

theorem of_rules {rules : Rulebook α}
    (h : (rules.toList.filter fun rule => rule.concludesOn s) = e.rulesOn s) :
    e.AlikeOn s { e with rules } where
  algebra := rfl
  defuzzifier := rfl
  rules := congrArg (List.map (Rule.partOn s)) h.symm
  facts _ _ := rfl

theorem askedFor_eq (h : e.AlikeOn s f) : e.askedFor s = f.askedFor s := by
  have hasked (e : Engine α) : e.askedFor s =
      ((e.rulesOn s).map (Rule.partOn s)).flatMap fun part => part.1.flatMap Condition.subjects := by
    rw [List.flatMap_map]
    rfl
  rw [hasked, hasked, h.rules]

theorem refl (e : Engine α) : e.AlikeOn s e := ⟨rfl, rfl, rfl, fun _ _ => rfl⟩

theorem trans (hef : e.AlikeOn s f) (hfg : f.AlikeOn s g) : e.AlikeOn s g where
  algebra := hef.algebra.trans hfg.algebra
  defuzzifier := hef.defuzzifier.trans hfg.defuzzifier
  rules := hef.rules.trans hfg.rules
  facts t ht := (hef.facts t ht).trans (hfg.facts t (hef.askedFor_eq ▸ ht))

end AlikeOn

theorem Unnoticed.alikeOn {s : Label} {e f : Engine α} (h : Unnoticed s e f) : e.AlikeOn s f := by
  cases h with
  | addFact h hs => exact .of_facts fun t ht => Facts.find?_of_add h (hs t ht)
  | updateFact h hs => exact .of_facts fun t ht => Facts.find?_of_update h (hs t ht)
  | removeFact h hs => exact .of_facts fun t ht => Facts.find?_of_remove? h (hs t ht)
  | addRule h hs =>
      refine .of_rules ?_
      rw [Rulebook.toList_of_add h, List.filter_append, List.filter_singleton, hs, rulesOn]
      exact List.append_nil _
  | removeRule h hs =>
      refine .of_rules ?_
      obtain ⟨before, after, hlist, hlist'⟩ := Rulebook.toList_of_remove h
      rw [rulesOn, hlist, hlist', List.filter_append, List.filter_append, List.filter_cons,
        if_neg (by simp [hs])]

theorem alikeOn_of_unnoticed {s : Label} {e f : Engine α}
    (h : Relation.ReflTransGen (Unnoticed s) e f) : e.AlikeOn s f := by
  induction h with
  | refl => exact .refl e
  | tail _ hstep ih => exact ih.trans hstep.alikeOn

/-- Two engines that read AND and OR alike and make numbers of curves alike give
a subject the same value if the rules on it are the same, up to their labels and
their conclusions on other subjects, and the facts that those ask for are the
same.  So no value changes by changes of facts that no rule on the subject asks
for and of rules on other subjects, one after another, nor by rules on other
subjects anywhere among the rules. -/
theorem noninterference (s : Label) :
    (∀ e f : Engine α, e.algebra = f.algebra → e.defuzzifier = f.defuzzifier →
      (e.rulesOn s).map (Rule.partOn s) = (f.rulesOn s).map (Rule.partOn s) →
      (∀ t ∈ e.askedFor s, e.facts.get t = f.facts.get t) →
      ∀ o p, e.execute = .ok o → f.execute = .ok p → o.find? s = p.find? s) ∧
    (∀ e f : Engine α, Relation.ReflTransGen (Unnoticed s) e f →
      ∀ o p, e.execute = .ok o → f.execute = .ok p → o.find? s = p.find? s) ∧
    (∀ (e : Engine α) (rules : Rulebook α) (before others after : List (Rule α)),
      e.rules.toList = before ++ after → rules.toList = before ++ others ++ after →
      (∀ rule ∈ others, rule.concludesOn s = false) →
      ∀ o p, e.execute = .ok o → execute { e with rules } = .ok p → o.find? s = p.find? s) := by
  refine ⟨fun e f halgebra hdefuzzifier hrules hfacts o p ho hp => ?_,
    fun e f h o p ho hp => (alikeOn_of_unnoticed h).find?_eq ho hp,
    fun e rules before others after hlist hlist' hothers o p ho hp => ?_⟩
  · have h : e.AlikeOn s f := ⟨halgebra, hdefuzzifier, hrules, hfacts⟩
    exact h.find?_eq ho hp
  · have hnone : (others.filter fun rule => rule.concludesOn s) = [] := by
      rw [List.filter_eq_nil_iff]
      simpa using hothers
    have h : e.AlikeOn s { e with rules } := by
      refine .of_rules ?_
      rw [rulesOn, hlist, hlist', List.filter_append, List.filter_append, hnone, List.append_nil,
        List.filter_append]
    exact h.find?_eq ho hp

def airing : Except (Fault Float) (Rule Float) := do
  let wind ← Variable.declare "wind" 0 9 [← FuzzySet.named "strong" (← Shape.ofRightEdge 1 4 0 1)]
  let window ← Variable.declare "window" 0 9 [← FuzzySet.named "open" (← Shape.ofSupport 5)]
  let strong ← (Condition.when (← wind.is "strong")).build
  Rule.ofClauses (← Label.named "airing") [strong] [← Conclusion.ofState window "open"]

/-- The room before and after a rule on a window joins those on fan and lamp. -/
def airedRoom : Except (Fault Float) (Engine Float × Engine Float) := do
  let e ← coolRoom
  let facts ← e.facts.add "wind" 3
  let (_, rules) ← e.rules.add (← airing)
  return (e, { e with facts, rules })

private theorem airedRoom_eq_ok {e f : Engine Float} (h : airedRoom = .ok (e, f)) :
    ∃ facts rule key rules, e.facts.add "wind" 3 = .ok facts ∧ airing = .ok rule ∧
      e.rules.add rule = .ok (key, rules) ∧ f = { e with facts, rules } := by
  obtain ⟨e, -, h⟩ := bind_eq_ok.1 h
  obtain ⟨facts, hfacts, h⟩ := bind_eq_ok.1 h
  obtain ⟨rule, hrule, h⟩ := bind_eq_ok.1 h
  obtain ⟨⟨key, rules⟩, hrules, h⟩ := bind_eq_ok.1 h
  cases h
  exact ⟨facts, rule, key, rules, hfacts, hrule, hrules, rfl⟩

theorem noninterference_of_airedRoom : ∃ (e f : Engine Float) (o p : Outcomes Float) (fan : Label),
    airedRoom = .ok (e, f) ∧ e.execute = .ok o ∧ f.execute = .ok p ∧ fan.text = "fan" ∧
      (o.size, p.size) = (2, 3) ∧ o.find? fan = p.find? fan := by
  have hrun : (do
      let fan ← Label.named "fan"
      let (e, f) ← airedRoom
      let o ← e.execute
      let p ← f.execute
      return ((e.askedFor fan).map fun t => t.text, (← airing).concludesOn fan,
        fan.text, o.size, p.size) : Except (Fault Float) _).toOption =
      some (["room", "room"], false, "fan", 2, 3) := by
    decide +kernel
  obtain ⟨fan, -, hrun⟩ := bind_eq_ok.1 (toOption_eq_some.1 hrun)
  obtain ⟨⟨e, f⟩, hroom, hrun⟩ := bind_eq_ok.1 hrun
  obtain ⟨o, ho, hrun⟩ := bind_eq_ok.1 hrun
  obtain ⟨p, hp, hrun⟩ := bind_eq_ok.1 hrun
  obtain ⟨rule, hrule, hrun⟩ := bind_eq_ok.1 hrun
  simp only [pure, Except.pure, Except.ok.injEq, Prod.mk.injEq] at hrun
  obtain ⟨hasked, hothers, hfan, ho2, hp3⟩ := hrun
  obtain ⟨facts, rule', key, rules, hfacts, hrule', hrules, rfl⟩ := airedRoom_eq_ok hroom
  cases hrule.symm.trans hrule'
  have hwind : ∀ t ∈ e.askedFor fan, Label.ofRaw "wind" ≠ .ok t := by
    intro t ht hwind
    have htext : t.text = "room" := by
      have hmem : t.text ∈ (e.askedFor fan).map fun t => t.text := List.mem_map_of_mem ht
      simpa [hasked] using hmem
    have hnames : (Label.ofRaw "wind").toOption ≠ (Label.ofRaw "room").toOption := by
      decide +kernel
    rw [hwind, ← htext, Label.ofRaw_text] at hnames
    exact hnames rfl
  have hsteps : Relation.ReflTransGen (Unnoticed fan) e { e with facts, rules } :=
    .tail (.single (.addFact hfacts hwind)) (.addRule hrules hothers)
  exact ⟨e, _, o, p, fan, hroom, ho, hp, hfan, by rw [ho2, hp3],
    (noninterference fan).2.1 e _ hsteps o p ho hp⟩

end Engine

end FuzzyInference
