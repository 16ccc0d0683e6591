import FuzzyInference.Facts
import FuzzyInference.Variable

/-!
# Propositions

What a rule speaks of: that a variable is in one of its states, or that it is
not.
-/

namespace FuzzyInference

inductive Copula
  | is
  | isNot
deriving DecidableEq, Repr

def Copula.keyword : Copula → String
  | is => "IS"
  | isNot => "IS NOT"

def Copula.apply {α : Type} [Scalar α] : Copula → Degree α → Degree α
  | is, degree => degree
  | isNot, degree => degree.complement

/-- `subject IS state` or `subject IS NOT state`, where the state is that of a
set of the variable. -/
structure Proposition (α : Type) [Scalar α] where
  about : Variable α
  copula : Copula
  set : FuzzySet α
  declared : set ∈ about.sets

namespace Proposition

variable {α : Type} [Scalar α]

def subject (p : Proposition α) : Label := p.about.subject

def state (p : Proposition α) : State := p.set.state

def ofSet (v : Variable α) (copula : Copula) (s : { s : FuzzySet α // s ∈ v.sets }) :
    Proposition α :=
  ⟨v, copula, s.1, s.2⟩

def ofState (v : Variable α) (copula : Copula) (state : State) :
    Except (Fault α) (Proposition α) :=
  (v.declared state).map (ofSet v copula)

def evaluate (p : Proposition α) (facts : Facts α) : Except (Fault α) (Degree α) := do
  return p.copula.apply (p.set.membership (← facts.get p.subject))

theorem get_state (p : Proposition α) : p.about.get p.state = .ok p.set :=
  Variable.get_of_mem p.declared

/-- The set that a proposition keeps is the one that a lookup of its state
finds, so it makes no difference whether the lookup is made again. -/
theorem evaluate_eq_lookup (p : Proposition α) (facts : Facts α) : p.evaluate facts = do
    let x ← facts.get p.subject
    let set ← p.about.get p.state
    return p.copula.apply (set.membership x) := by
  rw [evaluate, get_state]
  rfl

def text (p : Proposition α) : String :=
  p.subject.text ++ " " ++ p.copula.keyword ++ " " ++ p.state.text

end Proposition

namespace Variable

variable {α : Type} [Scalar α]

def is (v : Variable α) (raw : String) : Except (Fault α) (Proposition α) := do
  Proposition.ofState v .is (← State.named raw)

def isNot (v : Variable α) (raw : String) : Except (Fault α) (Proposition α) := do
  Proposition.ofState v .isNot (← State.named raw)

end Variable

end FuzzyInference
