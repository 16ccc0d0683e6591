import FuzzyInference.Proofs.Logic.Evaluation
import FuzzyInference.Rule

/-!
# How strongly rules fire

What the norms of an algebra keep of a relation between degrees holds of
conditions and rules as well: related premises make related conditions, and
related conditions make rules that fire with related strengths.
-/

namespace FuzzyInference

open Fallible

variable {α : Type} [Scalar α] {algebra : Algebra} {R : Degree α → Degree α → Prop}
  {facts facts' : Facts α}

theorem Condition.evaluate_related (hkeeps : algebra.Keeps R)
    (hmul : ∀ {a a' b b'}, R a a' → R b b' → R (a * b) (a' * b')) {c c' : Condition α}
    (hpremises : List.Forall₂ (fun p p' => p.connective = p'.connective ∧
      Agree R (p.proposition.evaluate facts) (p'.proposition.evaluate facts'))
      c.premises c'.premises)
    (hweight : R c.weight c'.weight) :
    Agree R (c.evaluate facts algebra) (c'.evaluate facts' algebra) := by
  have hclauses : List.Forall₂ (fun p p' => Agree (Clause.Related R)
      (Premise.evaluate p facts) (Premise.evaluate p' facts')) c.premises c'.premises :=
    hpremises.imp fun _ _ hp => hp.2.bind fun _ _ hdegree => .ok ⟨hp.1, hdegree⟩
  exact (Agree.mapM hclauses).bind fun _ _ h =>
    (hkeeps.evaluate h).bind fun _ _ hdegree => .ok (hmul hdegree hweight)

theorem Rule.firingStrength_related (hkeeps : algebra.Keeps R) {rule rule' : Rule α}
    (hconditions : List.Forall₂ (fun c c' => c.connective = c'.connective ∧
      Agree R (c.evaluate facts algebra) (c'.evaluate facts' algebra))
      rule.conditions rule'.conditions) :
    Agree R (rule.firingStrength facts algebra) (rule'.firingStrength facts' algebra) := by
  have hclauses : List.Forall₂ (fun c c' => Agree (Clause.Related R)
      (Condition.evaluate c facts algebra >>= fun d => pure (Clause.mk c.connective d))
      (Condition.evaluate c' facts' algebra >>= fun d => pure (Clause.mk c'.connective d)))
      rule.conditions rule'.conditions :=
    hconditions.imp fun _ _ hc => hc.2.bind fun _ _ hdegree => .ok ⟨hc.1, hdegree⟩
  exact (Agree.mapM hclauses).bind fun _ _ h => hkeeps.evaluate h

end FuzzyInference
