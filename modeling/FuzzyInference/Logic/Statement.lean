import FuzzyInference.Logic.Norm

/-!
# Statements

The degree of a statement such as `IF a AND b OR c AND d`.  AND binds tighter
than OR: every OR starts a new group, the degrees of a group are joined by the
t-norm, and the groups are joined by the t-conorm.
-/

namespace FuzzyInference

structure Clause (α : Type) [Scalar α] where
  connective : Connective
  degree : Degree α

/-- What AND and OR mean. -/
structure Algebra where
  conjunction : TNorm
  disjunction : TConorm
deriving DecidableEq, Repr

namespace Algebra

variable {α : Type} [Scalar α]

def standard : Algebra := ⟨.minimum, .maximum⟩

/-- The groups so far joined to one more, which is the first where there are
none. -/
def closeGroup (algebra : Algebra) :
    Option (Degree α) → Degree α → Except (Fault α) (Degree α)
  | none, group => .ok group
  | some groups, group => algebra.disjunction.evaluate groups group

/-- The degree of the clauses that follow the ones read, which are `groups`
joined and `group` still open. -/
def evaluateRest (algebra : Algebra) (groups : Option (Degree α)) (group : Degree α) :
    List (Clause α) → Except (Fault α) (Degree α)
  | [] => algebra.closeGroup groups group
  | clause :: rest =>
      match clause.connective with
      | .opening => .error (.misplacedConnective (.reopened .statement))
      | .and => do
          let group ← algebra.conjunction.evaluate group clause.degree
          algebra.evaluateRest groups group rest
      | .or => do
          let groups ← algebra.closeGroup groups group
          algebra.evaluateRest (some groups) clause.degree rest

def evaluate (algebra : Algebra) : List (Clause α) → Except (Fault α) (Degree α)
  | [] => .error (.misplacedConnective .nothing)
  | first :: rest =>
      if first.connective = .opening then algebra.evaluateRest none first.degree rest
      else .error (.misplacedConnective (.unopened .statement))

end Algebra

end FuzzyInference
