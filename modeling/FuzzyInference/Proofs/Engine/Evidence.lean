import FuzzyInference.Proofs.Engine.Refusals
import FuzzyInference.Proofs.Engine.Strength
import FuzzyInference.Proofs.Logic.Triangular

/-!
# Rules fire with their evidence

In exact arithmetic a rule that fires on some facts fires no less on facts that
speak more for its premises, and no less when one of its conditions is given
more weight.  All norms are monotone, a denial turns the order of degrees
around, and a weight scales them.
-/

namespace FuzzyInference

open Fallible

/-! ## Statements -/

theorem Algebra.keeps_le (algebra : Algebra) : algebra.Keeps fun a b : Degree ℚ => a ≤ b where
  conjunction ha hb := by
    rw [TNorm.evaluate_eq_exact, TNorm.evaluate_eq_exact]
    exact .ok (algebra.conjunction.isTriangular_exact.mono _ _ _ _ ha hb)
  disjunction ha hb := by
    rw [TConorm.evaluate_eq_exact, TConorm.evaluate_eq_exact]
    exact .ok (algebra.disjunction.isTriangular_exact.mono _ _ _ _ ha hb)

/-! ## Premises -/

def Copula.Gains : Copula → Degree ℚ → Degree ℚ → Prop
  | is, before, after => before ≤ after
  | isNot, before, after => after ≤ before

instance (copula : Copula) (a b : Degree ℚ) : Decidable (copula.Gains a b) :=
  match copula with
  | .is => inferInstanceAs (Decidable (a ≤ b))
  | .isNot => inferInstanceAs (Decidable (b ≤ a))

theorem Copula.apply_le {copula : Copula} {a b : Degree ℚ} (h : copula.Gains a b) :
    copula.apply a ≤ copula.apply b := by
  cases copula with
  | is => exact h
  | isNot => exact Rational.complement_le_complement h

section Facts

variable {facts facts' : Facts ℚ}

/-- Going from the first facts to the second speaks no less for the proposition:
the degree of the state of its set does not fall where it is affirmed and does
not rise where it is denied. -/
def Proposition.Gains (p : Proposition ℚ) (facts facts' : Facts ℚ) : Prop :=
  ∀ x x', facts.get p.subject = .ok x → facts'.get p.subject = .ok x' →
    p.copula.Gains (p.set.membership x) (p.set.membership x')

theorem Proposition.evaluate_gains {p : Proposition ℚ} (hknown : p.subject ∈ facts.labels)
    (hknown' : p.subject ∈ facts'.labels) (h : p.Gains facts facts') :
    Agree (· ≤ ·) (p.evaluate facts) (p.evaluate facts') := by
  obtain ⟨x, hx⟩ := facts.exists_get hknown
  obtain ⟨x', hx'⟩ := facts'.exists_get hknown'
  rw [Proposition.evaluate, Proposition.evaluate, hx, hx']
  exact .ok (Copula.apply_le (h x x' hx hx'))

theorem Condition.evaluate_gains {c : Condition ℚ} (hknown : ∀ t ∈ c.subjects, t ∈ facts.labels)
    (hknown' : ∀ t ∈ c.subjects, t ∈ facts'.labels)
    (h : ∀ p ∈ c.premises, p.proposition.Gains facts facts') (algebra : Algebra) :
    Agree (· ≤ ·) (c.evaluate facts algebra) (c.evaluate facts' algebra) := by
  refine Condition.evaluate_related algebra.keeps_le Rational.mul_mono ?_ (le_refl c.weight.value)
  refine List.forall₂_same.2 fun p hp => ⟨rfl, ?_⟩
  have hmem : p.proposition.subject ∈ c.subjects := List.mem_map_of_mem hp
  exact Proposition.evaluate_gains (hknown _ hmem) (hknown' _ hmem) (h p hp)

end Facts

/-! ## Weights -/

section Weights

private theorem forall₂_modify {β : Type} {S : β → β → Prop} (hrefl : ∀ b, S b b) {f : β → β}
    {l : List β} {i : ℕ} (h : ∀ b ∈ l[i]?, S b (f b)) : List.Forall₂ S l (l.modify i f) := by
  induction l generalizing i with
  | nil =>
      rw [List.modify_nil]
      exact .nil
  | cons b l ih =>
      cases i with
      | zero => exact .cons (h b rfl) (List.forall₂_same.2 fun c _ => hrefl c)
      | succ i => exact .cons (hrefl b) (ih h)

variable {α : Type} [Scalar α]

def Condition.reweigh (c : Condition α) (weight : Degree α) : Condition α := { c with weight }

def Rule.reweigh (rule : Rule α) (i : ℕ) (weight : Degree α) : Rule α :=
  { rule with
    conditions := rule.conditions.modify i fun c => c.reweigh weight
    wellFormed := by
      have hplaces := forall₂_modify (S := fun c c' => c'.connective = c.connective)
        (f := fun c => c.reweigh weight) (l := rule.conditions) (i := i)
        (fun _ => rfl) fun _ _ => rfl
      rw [map_eq_of_forall₂ hplaces fun _ _ _ hc => hc]
      exact rule.wellFormed }

end Weights

theorem Condition.evaluate_reweigh (c : Condition ℚ) {weight : Degree ℚ} (h : c.weight ≤ weight)
    (facts : Facts ℚ) (algebra : Algebra) :
    Agree (· ≤ ·) (c.evaluate facts algebra) ((c.reweigh weight).evaluate facts algebra) := by
  refine Condition.evaluate_related algebra.keeps_le Rational.mul_mono ?_ h
  refine List.forall₂_same.2 fun p _ => ⟨rfl, ?_⟩
  exact Agree.refl (fun d => le_refl d.value) _

/-! ## Rules -/

/-- In exact arithmetic a rule on facts that speak no less for each of its
premises fires no less.  With more weight for one of its conditions it fires no
less on any facts, or is refused for the same one that is missing. -/
theorem Rule.firingStrength_rises (rule : Rule ℚ) (algebra : Algebra) :
    (∀ facts facts' : Facts ℚ,
      (∀ t ∈ rule.premiseSubjects, t ∈ facts.labels ∧ t ∈ facts'.labels) →
      (∀ c ∈ rule.conditions, ∀ p ∈ c.premises, p.proposition.Gains facts facts') →
      ∃ d d', rule.firingStrength facts algebra = .ok d ∧
        rule.firingStrength facts' algebra = .ok d' ∧ d ≤ d') ∧
    ∀ (facts : Facts ℚ) (i : ℕ) (weight : Degree ℚ),
      (∀ c ∈ rule.conditions[i]?, c.weight ≤ weight) →
      Agree (· ≤ ·) (rule.firingStrength facts algebra)
        ((rule.reweigh i weight).firingStrength facts algebra) := by
  constructor
  · intro facts facts' hknown hgains
    obtain ⟨d, hd⟩ := rule.exists_firingStrength (fun t ht => (hknown t ht).1) algebra
    have hagree : Agree (· ≤ ·) (rule.firingStrength facts algebra)
        (rule.firingStrength facts' algebra) := by
      refine Rule.firingStrength_related algebra.keeps_le ?_
      refine List.forall₂_same.2 fun c hc => ⟨rfl, ?_⟩
      have hsubjects : ∀ t ∈ c.subjects, t ∈ rule.premiseSubjects :=
        fun t ht => List.mem_flatMap.2 ⟨c, hc, ht⟩
      exact Condition.evaluate_gains (fun t ht => (hknown t (hsubjects t ht)).1)
        (fun t ht => (hknown t (hsubjects t ht)).2) (hgains c hc) algebra
    obtain ⟨d', hd', hle⟩ := hagree.exists_ok hd
    exact ⟨d, d', hd, hd', hle⟩
  · intro facts i weight hweight
    refine Rule.firingStrength_related algebra.keeps_le (forall₂_modify (fun c => ?_) ?_)
    · exact ⟨rfl, Agree.refl (fun d => le_refl d.value) _⟩
    · intro c hc
      exact ⟨rfl, c.evaluate_reweigh (hweight c hc) facts algebra⟩

/-- A fan that runs when a room is warm and not aired, and half as surely when
it is damp, before and after the room gets warmer and the window is closed
further. -/
def fannedRoom : Except (Fault ℚ) (Rule ℚ × Facts ℚ × Facts ℚ) := do
  let room ← Variable.declare "room" 0 40 [← FuzzySet.named "warm" (← Shape.ofRightEdge 15 30 0 1)]
  let window ← Variable.declare "window" 0 9 [← FuzzySet.named "open" (← Shape.ofRightEdge 0 8 0 1)]
  let air ← Variable.declare "air" 0 100 [← FuzzySet.named "damp" (← Shape.ofRightEdge 50 90 0 1)]
  let fan ← Variable.declare "fan" 0 9 [← FuzzySet.named "on" (← Shape.ofSupport 5)]
  let stuffy ← ((Condition.when (← room.is "warm")).and (← window.isNot "open")).build
  let damp ← ((Condition.when (← air.is "damp")).weighted (← Degree.ofScalar (1 / 2))).build
  let rule ← ((((← Rule.named "fan").when stuffy).or damp).conclude
    (← Conclusion.ofState fan "on")).build
  let facts ← (← (← Facts.empty.add "room" 20).add "window" 6).add "air" 80
  return (rule, facts, ← (← facts.update "room" 24).update "window" 2)

theorem Rule.firingStrength_rises_of_fannedRoom : ∃ rule facts facts',
    fannedRoom = .ok (rule, facts, facts') ∧ ∀ algebra : Algebra,
      (∃ d d', rule.firingStrength facts algebra = .ok d ∧
        rule.firingStrength facts' algebra = .ok d' ∧ d ≤ d') ∧
      Agree (· ≤ ·) (rule.firingStrength facts algebra)
        ((rule.reweigh 1 1).firingStrength facts algebra) := by
  have hrun : (fannedRoom.toOption.any fun (rule, facts, facts') =>
      (rule.premiseSubjects.all fun t => t ∈ facts.labels ∧ t ∈ facts'.labels) &&
        (rule.conditions.all fun c => c.premises.all fun p =>
          (facts.get p.proposition.subject).toOption.all fun x =>
            (facts'.get p.proposition.subject).toOption.all fun x' =>
              p.proposition.copula.Gains (p.proposition.set.membership x)
                (p.proposition.set.membership x')) &&
          rule.conditions[1]?.all fun c => c.weight ≤ 1) = true := by
    decide +kernel
  simp only [Option.any_eq_true, Bool.and_eq_true, List.all_eq_true, Option.all_eq_true,
    toOption_eq_some, decide_eq_true_eq] at hrun
  obtain ⟨⟨rule, facts, facts'⟩, hroom, ⟨hknown, hgains⟩, hweight⟩ := hrun
  refine ⟨rule, facts, facts', hroom, fun algebra => ⟨?_, ?_⟩⟩
  · exact (rule.firingStrength_rises algebra).1 facts facts' hknown
      fun c hc p hp x x' hx hx' => hgains c hc p hp x hx x' hx'
  · exact (rule.firingStrength_rises algebra).2 facts 1 1 hweight

end FuzzyInference
