import FuzzyInference.Rule.Condition

/-!
# Rules

Conditions that are joined like the premises of one of them, and what is
concluded from them.
-/

namespace FuzzyInference

variable {α : Type} [Scalar α]

/-- `THEN subject IS state`, where the state is that of a set of the variable. -/
structure Conclusion (α : Type) [Scalar α] where
  proposition : Proposition α
  affirms : proposition.copula = .is

namespace Conclusion

def ofState (v : Variable α) (raw : String) : Except (Fault α) (Conclusion α) := do
  return ⟨.ofSet v .is (← v.declared (← State.named raw)), rfl⟩

def subject (c : Conclusion α) : Label := c.proposition.subject

def text (c : Conclusion α) : String := "THEN " ++ c.proposition.text

end Conclusion

structure Rule (α : Type) [Scalar α] where
  label : Label
  conditions : List (Condition α)
  conclusions : List (Conclusion α)
  wellFormed : Connective.WellFormed (conditions.map Condition.connective)
  concludes : conclusions ≠ []

/-- What a rule contributes to one output variable. -/
structure Activation (α : Type) [Scalar α] where
  subject : Label
  set : FuzzySet α
  strength : Degree α

namespace Rule

def ofClauses (label : Label) (conditions : List (Condition α))
    (conclusions : List (Conclusion α)) : Except (Fault α) (Rule α) :=
  if hincomplete : conditions = [] ∨ conclusions = [] then .error (.incompleteRule label)
  else
    match h : ConnectiveFault.find? .rule (conditions.map Condition.connective) with
    | some fault => .error (.misplacedConnective fault)
    | none =>
        .ok ⟨label, conditions, conclusions, ConnectiveFault.find?_eq_none_iff.1 h,
          fun hnil => hincomplete (.inr hnil)⟩

def firingStrength (rule : Rule α) (facts : Facts α) (algebra : Algebra) :
    Except (Fault α) (Degree α) := do
  let clauses ← rule.conditions.mapM fun condition => do
    return Clause.mk condition.connective (← condition.evaluate facts algebra)
  algebra.evaluate clauses

def evaluate (rule : Rule α) (facts : Facts α) (algebra : Algebra) :
    Except (Fault α) (List (Activation α)) := do
  let strength ← rule.firingStrength facts algebra
  return rule.conclusions.map fun c => ⟨c.subject, c.proposition.set, strength⟩

theorem evaluate_eq_lookup (rule : Rule α) (facts : Facts α) (algebra : Algebra) :
    rule.evaluate facts algebra = (do
      let strength ← rule.firingStrength facts algebra
      rule.conclusions.mapM fun c => do
        return ⟨c.subject, ← c.proposition.about.get c.proposition.state, strength⟩) := by
  simp only [evaluate, Proposition.get_state]
  refine bind_congr fun strength => ?_
  exact List.mapM_pure.symm

/-- The conditions after the first stand in parentheses. -/
def text [Numeral α] (rule : Rule α) : String :=
  let conditionTexts :=
    match rule.conditions with
    | [] => []
    | first :: rest =>
        first.text :: rest.map fun c => c.connective.keyword ++ " (" ++ c.innerText ++ ")"
  " ".intercalate
    ((rule.label.text ++ ":") :: conditionTexts ++ rule.conclusions.map Conclusion.text)

end Rule

/-! ## Building a rule -/

/-- A rule to which conditions and conclusions can be added in any order.  It
opens with its first condition, and says in its type whether it concludes
anything yet. -/
structure RuleDraft (α : Type) [Scalar α] (concludes : Bool) where
  label : Label
  conditions : List (Condition α)
  conclusions : List (Conclusion α)

namespace RuleDraft

variable {concludes : Bool}

def add (draft : RuleDraft α concludes) (connective : Connective) (c : Condition α) :
    RuleDraft α concludes :=
  { draft with conditions := draft.conditions ++ [c.attach connective] }

def and (draft : RuleDraft α concludes) (c : Condition α) : RuleDraft α concludes :=
  draft.add .and c

def or (draft : RuleDraft α concludes) (c : Condition α) : RuleDraft α concludes :=
  draft.add .or c

def conclude (draft : RuleDraft α concludes) (c : Conclusion α) : RuleDraft α true :=
  ⟨draft.label, draft.conditions, draft.conclusions ++ [c]⟩

def build (draft : RuleDraft α true) : Except (Fault α) (Rule α) :=
  Rule.ofClauses draft.label draft.conditions draft.conclusions

end RuleDraft

/-- A rule of which only the label is known. -/
structure RuleHeading where
  label : Label

def Rule.named (raw : String) : Except (Fault α) RuleHeading := do
  return ⟨← Label.named raw⟩

def RuleHeading.when (heading : RuleHeading) (c : Condition α) : RuleDraft α false :=
  ⟨heading.label, [c.attach .opening], []⟩

end FuzzyInference
