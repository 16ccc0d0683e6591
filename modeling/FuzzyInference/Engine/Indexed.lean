import FuzzyInference.Engine
import FuzzyInference.Facts.Indexed
import FuzzyInference.Rulebook.Indexed

/-!
# Indexed engines

A run that searches for nothing.  Facts and rules are in indexed stores, every
premise looks up its fact and then the set of its state, and an index leads from
a subject to the place of its group.
-/

namespace FuzzyInference

variable {α : Type} [Scalar α]

/-! ## Groups -/

/-- Groups of activations, and the place of the group of each subject. -/
structure IndexedGroups (α : Type) [Scalar α] where
  places : Index Nat
  groups : List (List (Activation α))

namespace IndexedGroups

def empty : IndexedGroups α := ⟨.empty, []⟩

/-- The place of the group of a subject.  Where there is none yet, an empty group
is made at the end. -/
def place (subject : Label) : StateM (IndexedGroups α) Nat := do
  if let some i := (← get).places.get? subject then return i
  modify fun s => { s with groups := s.groups ++ [[]] }
  let i := (← get).groups.length - 1
  modify fun s => { s with places := s.places.insert subject i }
  return i

def push (a : Activation α) : StateM (IndexedGroups α) Unit := do
  let i ← place a.subject
  modify fun s => { s with groups := s.groups.modify i fun group => group ++ [a] }

def run (activations : List (Activation α)) : IndexedGroups α :=
  activations.foldl (fun s a => ((push a).run s).2) empty

end IndexedGroups

/-! ## Evaluation -/

def Proposition.evaluateIn (p : Proposition α) (facts : IndexedFacts α) :
    Except (Fault α) (Degree α) := do
  let observation ← facts.get p.subject
  let set ← p.about.get p.state
  return p.copula.apply (set.membership observation.value)

def Condition.evaluateIn (c : Condition α) (facts : IndexedFacts α) (algebra : Algebra) :
    Except (Fault α) (Degree α) := do
  let clauses ← c.premises.mapM fun premise => do
    return Clause.mk premise.connective (← premise.proposition.evaluateIn facts)
  return (← algebra.evaluate clauses) * c.weight

namespace Rule

def firingStrengthIn (rule : Rule α) (facts : IndexedFacts α) (algebra : Algebra) :
    Except (Fault α) (Degree α) := do
  let clauses ← rule.conditions.mapM fun condition => do
    return Clause.mk condition.connective (← condition.evaluateIn facts algebra)
  algebra.evaluate clauses

def evaluateIn (rule : Rule α) (facts : IndexedFacts α) (algebra : Algebra) :
    Except (Fault α) (List (Activation α)) := do
  let strength ← rule.firingStrengthIn facts algebra
  rule.conclusions.mapM fun c => do
    return ⟨c.subject, ← c.proposition.about.get c.proposition.state, strength⟩

end Rule

/-! ## Engines -/

structure IndexedEngine (α σ κ : Type) [Scalar α] where
  facts : IndexedFacts α
  rules : IndexedRules σ κ
  algebra : Algebra
  defuzzifier : Defuzzifier

inductive EngineChange (α : Type) [Scalar α]
  | facts (change : FactChange α)
  | rules (change : RuleChange α)

namespace IndexedEngine

variable {σ κ : Type} [DecidableEq κ] [Slots σ κ (Rule α)]

def new (algebra : Algebra) (defuzzifier : Defuzzifier) : IndexedEngine α σ κ :=
  ⟨.empty, .empty, algebra, defuzzifier⟩

def apply (engine : IndexedEngine α σ κ) : EngineChange α → IndexedEngine α σ κ
  | .facts change => { engine with facts := engine.facts.apply change }
  | .rules change => { engine with rules := engine.rules.apply change }

def after (engine : IndexedEngine α σ κ) (changes : List (EngineChange α)) :
    IndexedEngine α σ κ :=
  changes.foldl apply engine

def evaluateRules (engine : IndexedEngine α σ κ) : Except (Fault α) (List (Activation α)) :=
  engine.rules.toList.foldlM (fun activations rule => do
    return activations ++ (← rule.evaluateIn engine.facts engine.algebra)) []

def execute (engine : IndexedEngine α σ κ) : Except (Fault α) (Outcomes α) := do
  let groups := (IndexedGroups.run (← engine.evaluateRules)).groups
  return ⟨← groups.mapM engine.defuzzifier.defuzzify⟩

end IndexedEngine

end FuzzyInference
