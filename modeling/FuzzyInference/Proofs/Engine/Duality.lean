import FuzzyInference.Proofs.Engine.Refusals
import FuzzyInference.Proofs.Logic.Triangular

/-!
# De Morgan's law

In exact arithmetic the norms at one place of the two lists are dual: what an
AND of degrees leaves of full truth is the OR of what each of them leaves.  So
a condition that affirms several things together and the one that denies one or
the other of them are complementary.
-/

namespace FuzzyInference

open Fallible

/-! ## Dual statements -/

theorem TConorm.exact_complement (conorm : TConorm) (a b : Degree ℚ) :
    conorm.exact a.complement b.complement = (conorm.dual.exact a b).complement := by
  rw [conorm.exact_eq_dual, Rational.complement_complement, Rational.complement_complement]

/-- De Morgan's law for any number of degrees. -/
theorem TConorm.reduce_complement (conorm : TConorm) {degrees : List (Degree ℚ)} {d : Degree ℚ}
    (h : Algebra.reduce conorm.dual.evaluate degrees = .ok d) :
    Algebra.reduce conorm.evaluate (degrees.map Degree.complement) = .ok d.complement := by
  cases degrees with
  | nil => cases h
  | cons first rest =>
      have hnorm : conorm.dual.evaluate = fun a b => pure (conorm.dual.exact a b) :=
        funext₂ conorm.dual.evaluate_eq_exact
      have hconorm : conorm.evaluate = fun a b => pure (conorm.exact a b) :=
        funext₂ conorm.evaluate_eq_exact
      rw [Algebra.reduce, hnorm, List.foldlM_pure] at h
      cases h
      rw [List.map_cons, Algebra.reduce, hconorm, List.foldlM_pure, List.foldl_map]
      exact congrArg Except.ok (List.foldl_hom Degree.complement conorm.exact_complement)

section Duals

variable {α : Type} [Scalar α]

def Connective.dual : Connective → Connective
  | opening => opening
  | and => or
  | or => and

def Clause.dual (c : Clause α) : Clause α := ⟨c.connective.dual, c.degree.complement⟩

theorem Clause.map_dual_chain_and (degrees : List (Degree α)) :
    (chain .and degrees).map dual = chain .or (degrees.map Degree.complement) := by
  cases degrees with
  | nil => rfl
  | cons first rest =>
      rw [chain, List.map_cons, List.map_map, List.map_cons, chain, List.map_map]
      rfl

end Duals

theorem Algebra.evaluate_map_dual {algebra algebra' : Algebra}
    (hdual : algebra'.disjunction.dual = algebra.conjunction) {clauses : List (Clause ℚ)}
    {d : Degree ℚ} (h : algebra.evaluate clauses = .ok d)
    (hjoined : ∀ c ∈ clauses.tail, c.connective = .and) :
    algebra'.evaluate (clauses.map Clause.dual) = .ok d.complement := by
  cases clauses with
  | nil => cases h
  | cons first rest =>
      by_cases hfirst : first.connective = .opening
      · have hchain := Clause.cons_eq_chain rest hfirst hjoined
        rw [hchain, evaluate_chain_and, ← hdual] at h
        rw [hchain, Clause.map_dual_chain_and, evaluate_chain_or]
        exact algebra'.disjunction.reduce_complement h
      · rw [evaluate, if_neg hfirst] at h
        cases h

/-! ## Dual conditions -/

section Duals

variable {α : Type} [Scalar α]

def Copula.negated : Copula → Copula
  | is => isNot
  | isNot => is

def Proposition.negated (p : Proposition α) : Proposition α := { p with copula := p.copula.negated }

def Premise.dual (p : Premise α) : Premise α := ⟨p.connective.dual, p.proposition.negated⟩

theorem Connective.WellFormed.map_dual {connectives : List Connective}
    (h : WellFormed connectives) : WellFormed (connectives.map Connective.dual) := by
  cases connectives with
  | nil => exact h.elim
  | cons first rest =>
      obtain ⟨rfl, hrest⟩ := h
      refine ⟨rfl, fun hopening => ?_⟩
      obtain ⟨c, hc, hdual⟩ := List.mem_map.1 hopening
      cases c with
      | opening => exact hrest hc
      | and => cases hdual
      | or => cases hdual

/-- The condition of the contrary propositions, with AND and OR exchanged. -/
def Condition.dual (c : Condition α) : Condition α where
  connective := c.connective
  premises := c.premises.map Premise.dual
  weight := c.weight
  wellFormed := by
    have hdual := c.wellFormed.map_dual
    rw [List.map_map] at hdual ⊢
    exact hdual

end Duals

variable {facts : Facts ℚ}

theorem Copula.apply_negated (copula : Copula) (degree : Degree ℚ) :
    copula.negated.apply degree = (copula.apply degree).complement := by
  cases copula with
  | is => rfl
  | isNot => exact (Rational.complement_complement degree).symm

theorem Proposition.evaluate_negated {p : Proposition ℚ} {d : Degree ℚ}
    (h : p.evaluate facts = .ok d) : p.negated.evaluate facts = .ok d.complement := by
  rw [Proposition.evaluate, bind_eq_ok] at h
  obtain ⟨x, hx, hd⟩ := h
  cases hd
  refine bind_eq_ok.2 ⟨x, hx, ?_⟩
  exact congrArg Except.ok (p.copula.apply_negated (p.set.membership x))

theorem Premise.evaluate_dual {p : Premise ℚ} {clause : Clause ℚ}
    (h : p.evaluate facts = .ok clause) : p.dual.evaluate facts = .ok clause.dual := by
  rw [Premise.evaluate, bind_eq_ok] at h
  obtain ⟨d, hd, hclause⟩ := h
  cases hclause
  exact bind_eq_ok.2 ⟨d.complement, Proposition.evaluate_negated hd, rfl⟩

theorem Condition.evaluate_dual {algebra algebra' : Algebra}
    (hdual : algebra'.disjunction.dual = algebra.conjunction) {c : Condition ℚ}
    (hweight : c.weight = 1) (hjoined : ∀ p ∈ c.premises.tail, p.connective = .and) {d : Degree ℚ}
    (h : c.evaluate facts algebra = .ok d) :
    c.dual.evaluate facts algebra' = .ok d.complement := by
  rw [Condition.evaluate, bind_eq_ok] at h
  obtain ⟨clauses, hclauses, h⟩ := h
  rw [bind_eq_ok] at h
  obtain ⟨whole, hwhole, hd⟩ := h
  rw [hweight, Rational.mul_one] at hd
  cases hd
  -- a negated premise asks for the same fact, so it gives the dual clause
  have hclauses' : c.dual.premises.mapM (fun p => p.evaluate facts) =
      .ok (clauses.map Clause.dual) := by
    refine mapM_eq_ok_iff.2 (List.forall₂_map_left_iff.2 (List.forall₂_map_right_iff.2 ?_))
    exact (mapM_eq_ok_iff.1 hclauses).imp fun _ _ => Premise.evaluate_dual
  have hjoined' : ∀ clause ∈ clauses.tail, clause.connective = .and := by
    have hconnectives : ∀ k ∈ (c.premises.map Premise.connective).tail, k = .and := by
      simpa only [← List.map_tail, List.forall_mem_map] using hjoined
    rw [← Premise.map_connective hclauses, ← List.map_tail, List.forall_mem_map] at hconnectives
    exact hconnectives
  refine bind_eq_ok.2 ⟨_, hclauses', bind_eq_ok.2 ⟨d.complement, ?_, ?_⟩⟩
  · exact Algebra.evaluate_map_dual hdual hwhole hjoined'
  · have hweight' : c.dual.weight = 1 := hweight
    rw [hweight', Rational.mul_one]
    rfl

/-! ## The law -/

theorem TConorm.dual_eq_of_mem_zip {norm : TNorm} {conorm : TConorm}
    (h : (norm, conorm) ∈ TNorm.all.zip TConorm.all) : conorm.dual = norm := by
  have hall : ∀ pair ∈ TNorm.all.zip TConorm.all, pair.2.dual = pair.1 := by decide
  exact hall _ h

theorem Clause.wellFormed_chain {join : Connective} (hjoin : join ≠ .opening)
    {degrees : List (Degree ℚ)} (hne : degrees ≠ []) :
    Connective.WellFormed ((chain join degrees).map Clause.connective) := by
  cases degrees with
  | nil => exact absurd rfl hne
  | cons first rest =>
      refine ⟨rfl, fun hopening => ?_⟩
      rw [List.map_map, List.mem_map] at hopening
      obtain ⟨_, _, hjoined⟩ := hopening
      exact hjoin hjoined

/-- In exact arithmetic norms at the same place of the two lists obey De
Morgan's law.  Joining degrees by AND leaves of full truth what joining their
complements by OR gives; and a condition of full weight that joins its premises
by AND has the complementary degree of the one that joins the contrary
propositions by OR, whatever the facts are that it asks for. -/
theorem Algebra.deMorgan (algebra algebra' : Algebra)
    (hpair : (algebra.conjunction, algebra'.disjunction) ∈ TNorm.all.zip TConorm.all) :
    (∀ degrees : List (Degree ℚ), degrees ≠ [] →
      ∃ d d', algebra.evaluate (Clause.chain .and degrees) = .ok d ∧
        algebra'.evaluate (Clause.chain .or (degrees.map Degree.complement)) = .ok d' ∧
        d'.value = 1 - d.value) ∧
    ∀ (c : Condition ℚ) (facts : Facts ℚ), c.weight = 1 →
      (∀ p ∈ c.premises.tail, p.connective = .and) → (∀ t ∈ c.subjects, t ∈ facts.labels) →
      ∃ d d', c.evaluate facts algebra = .ok d ∧ c.dual.evaluate facts algebra' = .ok d' ∧
        d'.value = 1 - d.value := by
  have hdual := TConorm.dual_eq_of_mem_zip hpair
  constructor
  · intro degrees hne
    have hand : Connective.and ≠ .opening := by decide
    obtain ⟨d, hd⟩ := algebra.exists_evaluate (Clause.wellFormed_chain hand hne)
    refine ⟨d, d.complement, hd, ?_, Rational.value_complement d⟩
    rw [evaluate_chain_and, ← hdual] at hd
    rw [evaluate_chain_or]
    exact algebra'.disjunction.reduce_complement hd
  · intro c facts hweight hjoined hknown
    obtain ⟨d, hd⟩ := c.exists_evaluate hknown algebra
    exact ⟨d, d.complement, hd, Condition.evaluate_dual hdual hweight hjoined hd,
      Rational.value_complement d⟩

def closedRoom : Except (Fault ℚ) (Condition ℚ × Facts ℚ) := do
  let room ← Variable.declare "room" 0 40 [← FuzzySet.named "warm" (← Shape.ofRightEdge 15 30 0 1)]
  let window ← Variable.declare "window" 0 9 [← FuzzySet.named "open" (← Shape.ofRightEdge 0 8 0 1)]
  let stuffy ← ((Condition.when (← room.is "warm")).and (← window.isNot "open")).build
  return (stuffy, ← (← Facts.empty.add "room" 20).add "window" 6)

theorem Algebra.deMorgan_of_closedRoom : ∃ c facts d d', closedRoom = .ok (c, facts) ∧
    c.evaluate facts ⟨.hamacher, .maximum⟩ = .ok d ∧
      c.dual.evaluate facts ⟨.minimum, .hamacher⟩ = .ok d' ∧ d'.value = 1 - d.value := by
  have hrun : (closedRoom.toOption.any fun (c, facts) =>
      c.weight == 1 && (c.premises.tail.all fun p => p.connective = .and) &&
        c.subjects.all fun t => t ∈ facts.labels) = true := by
    decide +kernel
  simp only [Option.any_eq_true, Bool.and_eq_true, List.all_eq_true, toOption_eq_some,
    decide_eq_true_eq, beq_iff_eq] at hrun
  obtain ⟨⟨c, facts⟩, hroom, ⟨hweight, hjoined⟩, hknown⟩ := hrun
  have hpair : (TNorm.hamacher, TConorm.hamacher) ∈ TNorm.all.zip TConorm.all := by decide
  obtain ⟨d, d', hd, hd', hvalue⟩ :=
    (deMorgan ⟨.hamacher, .maximum⟩ ⟨.minimum, .hamacher⟩ hpair).2 c facts hweight hjoined hknown
  exact ⟨c, facts, d, d', hroom, hd, hd', hvalue⟩

end FuzzyInference
