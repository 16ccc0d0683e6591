import FuzzyInference.Proofs.Engine.Cutting

/-!
# What the builders build

Statements, conditions and rules check their connectives one by one, and all
three accept the same sequences, so that nothing which was constructed is refused
for its connectives when it is evaluated.  The drafts of a condition and of a
rule keep to such sequences whatever is called on them: they build what the
constructors make of the premises, conditions and conclusions in the order of
the calls.
-/

namespace FuzzyInference

open Fallible

/-! ## The three checks -/

section Checks

variable {α : Type} [Scalar α]

theorem Algebra.exists_evaluate_iff [TotalNorms α] (algebra : Algebra)
    {clauses : List (Clause α)} :
    (∃ d, algebra.evaluate clauses = .ok d) ↔
      Connective.WellFormed (clauses.map Clause.connective) := by
  refine ⟨fun ⟨d, hd⟩ => ?_, algebra.exists_evaluate⟩
  cases hfault : ConnectiveFault.find? .statement (clauses.map Clause.connective) with
  | none => exact ConnectiveFault.find?_eq_none_iff.1 hfault
  | some fault =>
      rw [algebra.evaluate_of_fault hfault] at hd
      cases hd

theorem Condition.exists_ofPremises_iff {premises : List (Premise α)} {weight : Degree α} :
    (∃ c, ofPremises premises weight = .ok c) ↔
      Connective.WellFormed (premises.map Premise.connective) :=
  ⟨fun ⟨_, hc⟩ => (ofPremises_eq_ok_iff.1 hc).2.2.2, exists_ofPremises weight⟩

theorem Rule.exists_ofClauses_iff {label : Label} {conditions : List (Condition α)}
    {conclusions : List (Conclusion α)} (hne : conclusions ≠ []) :
    (∃ rule, ofClauses label conditions conclusions = .ok rule) ↔
      Connective.WellFormed (conditions.map Condition.connective) := by
  constructor
  · rintro ⟨rule, hrule⟩
    obtain ⟨-, rfl, -⟩ := ofClauses_eq_ok_iff.1 hrule
    exact rule.wellFormed
  · intro hwell
    obtain ⟨rule, hrule, -⟩ := exists_ofClauses label hwell hne
    exact ⟨rule, hrule⟩

omit [Scalar α] in
theorem ne_misplaced_of_fault? {β : Type} {x : Except (Fault α) β} {missing : Option Label}
    (h : fault? x = missing.map .missingFact) (fault : ConnectiveFault) :
    x ≠ .error (.misplacedConnective fault) := by
  rintro rfl
  cases missing <;> cases h

end Checks

/-! ## Drafts of a condition -/

section Conditions

variable {α : Type} [Scalar α]

inductive ConditionCall (α : Type) [Scalar α]
  | and (p : Proposition α)
  | or (p : Proposition α)
  | weighted (weight : Degree α)

namespace ConditionCall

def premise? : ConditionCall α → Option (Premise α)
  | and p => some ⟨.and, p⟩
  | or p => some ⟨.or, p⟩
  | weighted _ => none

def weight? : ConditionCall α → Option (Degree α)
  | weighted weight => some weight
  | _ => none

theorem connective_of_premise? {call : ConditionCall α} {premise : Premise α}
    (h : call.premise? = some premise) : premise.connective ≠ .opening := by
  cases call <;> cases h <;> nofun

end ConditionCall

namespace ConditionDraft

def call (draft : ConditionDraft α) : ConditionCall α → ConditionDraft α
  | .and p => draft.and p
  | .or p => draft.or p
  | .weighted weight => draft.weighted weight

def after (draft : ConditionDraft α) (calls : List (ConditionCall α)) : ConditionDraft α :=
  calls.foldl call draft

theorem premises_call (draft : ConditionDraft α) (call : ConditionCall α) :
    (draft.call call).premises = draft.premises ++ call.premise?.toList := by
  cases call with
  | and p => rfl
  | or p => rfl
  | weighted weight => exact (List.append_nil _).symm

theorem weight_call (draft : ConditionDraft α) (call : ConditionCall α) :
    (draft.call call).weight = call.weight?.getD draft.weight := by
  cases call <;> rfl

theorem premises_after (draft : ConditionDraft α) (calls : List (ConditionCall α)) :
    (draft.after calls).premises = draft.premises ++ calls.filterMap ConditionCall.premise? := by
  induction calls generalizing draft with
  | nil => exact (List.append_nil _).symm
  | cons call calls ih =>
      rw [after, List.foldl_cons, ← after, ih, premises_call, List.append_assoc]
      cases hpremise : call.premise? with
      | none => rw [List.filterMap_cons_none hpremise, Option.toList_none, List.nil_append]
      | some premise => rw [List.filterMap_cons_some hpremise, Option.toList_some,
          List.singleton_append]

theorem weight_after (draft : ConditionDraft α) (calls : List (ConditionCall α)) :
    (draft.after calls).weight =
      (calls.filterMap ConditionCall.weight?).getLast?.getD draft.weight := by
  induction calls generalizing draft with
  | nil => rfl
  | cons call calls ih =>
      rw [after, List.foldl_cons, ← after, ih, weight_call]
      cases hweight : call.weight? with
      | none => rw [List.filterMap_cons_none hweight, Option.getD_none]
      | some weight => rw [List.filterMap_cons_some hweight, List.getLast?_cons, Option.getD_some,
          Option.getD_some]

theorem build_after_when (p : Proposition α) (calls : List (ConditionCall α)) :
    ((Condition.when p).after calls).build =
      Condition.ofPremises (⟨.opening, p⟩ :: calls.filterMap ConditionCall.premise?)
        ((calls.filterMap ConditionCall.weight?).getLast?.getD 1) := by
  rw [build, premises_after, weight_after]
  rfl

theorem exists_build_after_when (p : Proposition α) (calls : List (ConditionCall α)) :
    ∃ c, ((Condition.when p).after calls).build = .ok c := by
  rw [build_after_when, Condition.exists_ofPremises_iff]
  refine ⟨rfl, fun hopening => ?_⟩
  obtain ⟨premise, hpremise, hconnective⟩ := List.mem_map.1 hopening
  obtain ⟨call, -, hcall⟩ := List.mem_filterMap.1 hpremise
  exact ConditionCall.connective_of_premise? hcall hconnective

end ConditionDraft

end Conditions

/-! ## Drafts of a rule -/

section Rules

variable {α : Type} [Scalar α] {concludes : Bool}

/-- Calls on the draft of a rule.  The index says whether one of them concludes
something, as the type of the draft does. -/
inductive RuleCalls (α : Type) [Scalar α] : Bool → Type
  | none : RuleCalls α false
  | and {concludes : Bool} (calls : RuleCalls α concludes) (c : Condition α) :
      RuleCalls α concludes
  | or {concludes : Bool} (calls : RuleCalls α concludes) (c : Condition α) :
      RuleCalls α concludes
  | conclude {concludes : Bool} (calls : RuleCalls α concludes) (c : Conclusion α) :
      RuleCalls α true

namespace RuleCalls

def conditions {concludes : Bool} : RuleCalls α concludes → List (Condition α)
  | none => []
  | and calls c => calls.conditions ++ [c.attach .and]
  | or calls c => calls.conditions ++ [c.attach .or]
  | conclude calls _ => calls.conditions

def conclusions {concludes : Bool} : RuleCalls α concludes → List (Conclusion α)
  | none => []
  | and calls _ => calls.conclusions
  | or calls _ => calls.conclusions
  | conclude calls c => calls.conclusions ++ [c]

def draft (heading : RuleHeading) (first : Condition α) {concludes : Bool} :
    RuleCalls α concludes → RuleDraft α concludes
  | none => heading.when first
  | and calls c => (calls.draft heading first).and c
  | or calls c => (calls.draft heading first).or c
  | conclude calls c => (calls.draft heading first).conclude c

theorem draft_eq (heading : RuleHeading) (first : Condition α) (calls : RuleCalls α concludes) :
    calls.draft heading first =
      ⟨heading.label, first.attach .opening :: calls.conditions, calls.conclusions⟩ := by
  induction calls with
  | none => rfl
  | and calls c ih => rw [draft, ih]; rfl
  | or calls c ih => rw [draft, ih]; rfl
  | conclude calls c ih => rw [draft, ih]; rfl

theorem connective_ne_opening (calls : RuleCalls α concludes) :
    ∀ c ∈ calls.conditions, c.connective ≠ .opening := by
  induction calls with
  | none => nofun
  | and calls c ih =>
      rw [conditions, List.forall_mem_append, List.forall_mem_singleton]
      exact ⟨ih, nofun⟩
  | or calls c ih =>
      rw [conditions, List.forall_mem_append, List.forall_mem_singleton]
      exact ⟨ih, nofun⟩
  | conclude calls c ih => exact ih

theorem conclusions_ne_nil (calls : RuleCalls α true) : calls.conclusions ≠ [] := by
  generalize hconcludes : true = concludes at calls
  induction calls with
  | none => cases hconcludes
  | and calls c ih => exact ih hconcludes
  | or calls c ih => exact ih hconcludes
  | conclude calls c => exact List.append_ne_nil_of_right_ne_nil _ (List.cons_ne_nil c [])

theorem build_draft (heading : RuleHeading) (first : Condition α) (calls : RuleCalls α true) :
    (calls.draft heading first).build =
      Rule.ofClauses heading.label (first.attach .opening :: calls.conditions)
        calls.conclusions := by
  rw [draft_eq, RuleDraft.build]

theorem exists_build_draft (heading : RuleHeading) (first : Condition α)
    (calls : RuleCalls α true) : ∃ rule, (calls.draft heading first).build = .ok rule := by
  rw [build_draft, Rule.exists_ofClauses_iff calls.conclusions_ne_nil]
  refine ⟨rfl, fun hopening => ?_⟩
  obtain ⟨c, hc, hconnective⟩ := List.mem_map.1 hopening
  exact calls.connective_ne_opening c hc hconnective

end RuleCalls

end Rules

/-! ## Checks and drafts together -/

/-- The constructors accept premises and conditions exactly if the statements with
their connectives have degrees, so what they construct is never refused for its
connectives.  Drafts always build, those of a rule once its label is accepted, and
what they build shows of the calls only the premises, conditions and conclusions
that they add, each in order, and the last weight. -/
theorem drafts_pass_the_checks :
    (∀ (algebra : Algebra) (clauses : List (Clause Float)),
      (∀ (premises : List (Premise Float)) (weight : Degree Float),
        clauses.map Clause.connective = premises.map Premise.connective →
          ((∃ c, Condition.ofPremises premises weight = .ok c) ↔
            ∃ d, algebra.evaluate clauses = .ok d)) ∧
      ∀ (label : Label) (conditions : List (Condition Float))
        (conclusions : List (Conclusion Float)), conclusions ≠ [] →
        clauses.map Clause.connective = conditions.map Condition.connective →
          ((∃ rule, Rule.ofClauses label conditions conclusions = .ok rule) ↔
            ∃ d, algebra.evaluate clauses = .ok d)) ∧
    (∀ (facts : Facts Float) (algebra : Algebra) (fault : ConnectiveFault),
      (∀ c : Condition Float, c.evaluate facts algebra ≠ .error (.misplacedConnective fault)) ∧
      ∀ rule : Rule Float,
        rule.firingStrength facts algebra ≠ .error (.misplacedConnective fault) ∧
        rule.evaluate facts algebra ≠ .error (.misplacedConnective fault)) ∧
    (∀ (p : Proposition Float) (calls : List (ConditionCall Float)), ∃ c,
      ((Condition.when p).after calls).build = .ok c ∧
        Condition.ofPremises (⟨.opening, p⟩ :: calls.filterMap ConditionCall.premise?)
          ((calls.filterMap ConditionCall.weight?).getLast?.getD 1) = .ok c) ∧
    (∀ (raw : String) (fault : NameFault), Label.ofRaw raw = .error fault →
      (Rule.named raw : Except (Fault Float) RuleHeading) = .error (.badName fault)) ∧
    ∀ (raw : String) (label : Label), Label.ofRaw raw = .ok label → ∃ heading,
      (Rule.named raw : Except (Fault Float) RuleHeading) = .ok heading ∧
      ∀ (first : Condition Float) (calls : RuleCalls Float true),
        (∃ rule, (calls.draft heading first).build = .ok rule ∧
          Rule.ofClauses label (first.attach .opening :: calls.conditions) calls.conclusions =
            .ok rule) ∧
        ∀ calls' : RuleCalls Float true, calls'.conditions = calls.conditions →
          calls'.conclusions = calls.conclusions →
            (calls'.draft heading first).build = (calls.draft heading first).build := by
  refine ⟨fun algebra clauses => ⟨fun premises weight h => ?_,
    fun label conditions conclusions hne h => ?_⟩, fun facts algebra fault => ⟨fun c => ?_,
    fun rule => ?_⟩, fun p calls => ?_, fun raw fault hraw => ?_, fun raw label hraw =>
    ⟨⟨label⟩, ?_, fun first calls => ⟨?_, ?_⟩⟩⟩
  · rw [Condition.exists_ofPremises_iff, algebra.exists_evaluate_iff, h]
  · rw [Rule.exists_ofClauses_iff hne, algebra.exists_evaluate_iff, h]
  · exact ne_misplaced_of_fault? (c.fault?_evaluate facts algebra) fault
  · exact ⟨ne_misplaced_of_fault? (rule.fault?_firingStrength facts algebra) fault,
      ne_misplaced_of_fault? (rule.fault?_evaluate facts algebra) fault⟩
  · obtain ⟨c, hc⟩ := ConditionDraft.exists_build_after_when p calls
    exact ⟨c, hc, ConditionDraft.build_after_when p calls ▸ hc⟩
  · rw [Rule.named, Label.named, hraw]
    rfl
  · rw [Rule.named, Label.named, hraw]
    rfl
  · obtain ⟨rule, hrule⟩ := calls.exists_build_draft ⟨label⟩ first
    exact ⟨rule, hrule, calls.build_draft ⟨label⟩ first ▸ hrule⟩
  · intro calls' hconditions hconclusions
    rw [RuleCalls.build_draft, RuleCalls.build_draft, hconditions, hconclusions]

/-- Premises that a condition accepts and premises that it does not, two orders in
which a rule comes by the same clauses, with a condition that joined another rule
by OR, and a label that is refused before the first of them. -/
theorem drafts_pass_the_checks_of_ventilation :
    (Rule.named " " : Except (Fault Float) RuleHeading) = .error (.badName .empty) ∧
    ∃ p q r label heading, (ventilation (α := Float)) = .ok (p, q, r) ∧
      Label.ofRaw "Airing" = .ok label ∧
      (Rule.named "Airing" : Except (Fault Float) RuleHeading) = .ok heading ∧
      (∃ c, Condition.ofPremises (ventilationPremises p q r) 1 = .ok c) ∧
      (¬ ∃ c, Condition.ofPremises (ventilationPremises p q r).tail 1 = .ok c) ∧
      ∃ c, ((Condition.when p).after [.weighted 0, .and q, .weighted 1, .or r]).build = .ok c ∧
        Condition.ofPremises (ventilationPremises p q r) 1 = .ok c ∧
        ∀ conclusion : Conclusion Float,
          ∃ rule, Rule.ofClauses label [c, c.attach .and] [conclusion] = .ok rule ∧
            (RuleDraft.build <| ((heading.when (c.attach .or)).conclude conclusion).and c) =
              .ok rule ∧
            (RuleDraft.build <| ((heading.when (c.attach .or)).and c).conclude conclusion) =
              .ok rule := by
  have hbinary : (ventilation (α := Float)).toOption.isSome := by decide +kernel
  have hairing : (Label.ofRaw "Airing").toOption.isSome := by decide +kernel
  have hblank : Label.ofRaw " " = .error .empty := by decide +kernel
  obtain ⟨⟨p, q, r⟩, hpropositions⟩ := Option.isSome_iff_exists.1 hbinary
  obtain ⟨label, hlabel⟩ := Option.isSome_iff_exists.1 hairing
  obtain ⟨hchecks, -, hcondition, hrefused, hrule⟩ := drafts_pass_the_checks
  obtain ⟨c, hbuild, hc⟩ := hcondition p [.weighted 0, .and q, .weighted 1, .or r]
  obtain ⟨heading, hheading, hdrafts⟩ := hrule "Airing" label (toOption_eq_some.1 hlabel)
  refine ⟨hrefused " " .empty hblank, p, q, r, label, heading,
    toOption_eq_some.1 hpropositions, toOption_eq_some.1 hlabel, hheading, ?_, ?_, c, hbuild, hc, fun conclusion => ?_⟩
  · exact ((hchecks .standard [⟨.opening, 1⟩, ⟨.and, 1⟩, ⟨.or, 1⟩]).1 _ 1 rfl).2 ⟨1, rfl⟩
  · rw [(hchecks .standard [⟨.and, 1⟩, ⟨.or, 1⟩]).1 _ 1 rfl]
    rintro ⟨d, hd⟩
    cases hd
  · obtain ⟨⟨rule, hbuilt, hmade⟩, hsame⟩ :=
      hdrafts (c.attach .or) ((RuleCalls.none.conclude conclusion).and c)
    have hfirst : (c.attach .or).attach .opening = c := by
      obtain ⟨hconnective, -⟩ := Condition.ofPremises_eq_ok_iff.1 hc
      rw [Condition.attach, Condition.attach, ← hconnective]
    rw [hfirst] at hmade
    exact ⟨rule, hmade, hbuilt,
      (hsame ((RuleCalls.none.and c).conclude conclusion) rfl rfl).trans hbuilt⟩

end FuzzyInference
