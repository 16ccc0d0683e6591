import FuzzyInference.Logic.Statement
import FuzzyInference.Rule.Proposition

/-!
# Conditions

A group of premises joined by AND and OR, scaled by the certainty it is given.
-/

namespace FuzzyInference

variable {α : Type} [Scalar α]

structure Premise (α : Type) [Scalar α] where
  connective : Connective
  proposition : Proposition α

namespace Premise

def text (p : Premise α) : String := p.connective.keyword ++ " " ++ p.proposition.text

def evaluate (p : Premise α) (facts : Facts α) : Except (Fault α) (Clause α) := do
  return ⟨p.connective, ← p.proposition.evaluate facts⟩

end Premise

/-- Premises with a weight, and the place of the whole in a rule. -/
structure Condition (α : Type) [Scalar α] where
  connective : Connective
  premises : List (Premise α)
  weight : Degree α
  wellFormed : Connective.WellFormed (premises.map Premise.connective)

namespace Condition

def ofPremises (premises : List (Premise α)) (weight : Degree α) :
    Except (Fault α) (Condition α) :=
  if premises = [] then .error .noPremises
  else
    match h : ConnectiveFault.find? .condition (premises.map Premise.connective) with
    | some fault => .error (.misplacedConnective fault)
    | none => .ok ⟨.opening, premises, weight, ConnectiveFault.find?_eq_none_iff.1 h⟩

def attach (c : Condition α) (connective : Connective) : Condition α := { c with connective }

/-- The degree to which a condition holds of the known facts.  A missing fact
leaves it undecided, whatever the other premises say. -/
def evaluate (c : Condition α) (facts : Facts α) (algebra : Algebra) :
    Except (Fault α) (Degree α) := do
  let clauses ← c.premises.mapM fun premise => premise.evaluate facts
  return (← algebra.evaluate clauses) * c.weight

variable [Numeral α]

/-- The words that give a weight, of which full weight needs none. -/
def weightText (c : Condition α) : String :=
  if c.weight.isOne then "" else " WITH " ++ Numeral.text c.weight

def text (c : Condition α) : String :=
  " ".intercalate (c.premises.map Premise.text) ++ c.weightText

/-- The text of a condition that its connective stands before, in place of the
one that opens it. -/
def innerText (c : Condition α) : String :=
  let premiseTexts :=
    match c.premises with
    | [] => []
    | first :: rest => first.proposition.text :: rest.map Premise.text
  " ".intercalate premiseTexts ++ c.weightText

end Condition

/-! ## Building a condition -/

/-- A condition to which premises can be added.  It opens with its first
proposition. -/
structure ConditionDraft (α : Type) [Scalar α] where
  premises : List (Premise α)
  weight : Degree α

namespace ConditionDraft

def add (draft : ConditionDraft α) (connective : Connective) (p : Proposition α) :
    ConditionDraft α :=
  { draft with premises := draft.premises ++ [⟨connective, p⟩] }

def and (draft : ConditionDraft α) (p : Proposition α) : ConditionDraft α := draft.add .and p

def or (draft : ConditionDraft α) (p : Proposition α) : ConditionDraft α := draft.add .or p

def weighted (draft : ConditionDraft α) (weight : Degree α) : ConditionDraft α :=
  { draft with weight }

def build (draft : ConditionDraft α) : Except (Fault α) (Condition α) :=
  Condition.ofPremises draft.premises draft.weight

end ConditionDraft

def Condition.when (p : Proposition α) : ConditionDraft α := ⟨[⟨.opening, p⟩], 1⟩

end FuzzyInference
