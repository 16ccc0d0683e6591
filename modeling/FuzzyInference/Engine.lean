import FuzzyInference.Crisp.Defuzzifier
import FuzzyInference.Rulebook

/-!
# Engines

Facts and rules together with the reading of AND and OR and the way to one
number.  A run evaluates every rule, gathers what is concluded on each output
variable and makes a crisp value of it.
-/

namespace FuzzyInference

variable {α : Type} [Scalar α]

inductive EngineKind
  | mamdani
  | sugeno
deriving DecidableEq, Repr

def EngineKind.name : EngineKind → String
  | mamdani => "mamdani"
  | sugeno => "sugeno"

structure Engine (α : Type) [Scalar α] where
  kind : Option EngineKind
  facts : Facts α
  rules : Rulebook α
  algebra : Algebra
  defuzzifier : Defuzzifier

/-- The crisp values of a run, in the order in which the rules first conclude
on their subjects. -/
structure Outcomes (α : Type) where
  toList : List (Outcome α)

namespace Outcomes

def find? (outcomes : Outcomes α) (subject : Label) : Option α :=
  (outcomes.toList.find? fun o => o.subject = subject).map Outcome.value

def size (outcomes : Outcomes α) : Nat := outcomes.toList.length

def isEmpty (outcomes : Outcomes α) : Bool := outcomes.toList.isEmpty

def text [Numeral α] (outcomes : Outcomes α) : String :=
  ", ".intercalate (outcomes.toList.map Outcome.text)

end Outcomes

/-- The groups with one more activation: in the group of its subject, or in a
new group at the end. -/
def insertActivation (groups : List (List (Activation α))) (a : Activation α) :
    List (List (Activation α)) :=
  match groups with
  | [] => [[a]]
  | group :: rest =>
      if group.any fun b => b.subject = a.subject then (group ++ [a]) :: rest
      else group :: insertActivation rest a

def groupBySubject (activations : List (Activation α)) : List (List (Activation α)) :=
  activations.foldl insertActivation []

namespace Engine

def new (algebra : Algebra) (defuzzifier : Defuzzifier) : Engine α :=
  ⟨none, .empty, .empty, algebra, defuzzifier⟩

def mamdani (algebra : Algebra) (method : Method) : Engine α :=
  { new algebra (.merging method) with kind := some .mamdani }

def sugeno (algebra : Algebra) : Engine α :=
  { new algebra .weightedAverage with kind := some .sugeno }

def evaluateRules (engine : Engine α) : Except (Fault α) (List (Activation α)) := do
  let contributions ← engine.rules.toList.mapM fun rule =>
    rule.evaluate engine.facts engine.algebra
  return contributions.flatten

def execute (engine : Engine α) : Except (Fault α) (Outcomes α) := do
  let groups := groupBySubject (← engine.evaluateRules)
  return ⟨← groups.mapM engine.defuzzifier.defuzzify⟩

end Engine

end FuzzyInference
