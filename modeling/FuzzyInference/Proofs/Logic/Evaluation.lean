import FuzzyInference.Logic.Statement
import FuzzyInference.Proofs.Fallible

/-!
# What statements take over from their norms

Where every norm gives a degree for any two degrees, every well-formed
statement has one, and the fault of any other statement is that of its
connectives.  What the two norms of an algebra keep of a relation between
degrees the degree of a statement keeps of it.
-/

namespace FuzzyInference

open Fallible

class TotalNorms (α : Type) [Scalar α] : Prop where
  conjunction : ∀ (norm : TNorm) (a b : Degree α), ∃ d, norm.evaluate a b = .ok d
  disjunction : ∀ (conorm : TConorm) (a b : Degree α), ∃ d, conorm.evaluate a b = .ok d

variable {α : Type} [Scalar α]

namespace Algebra

/-! ## Totality -/

section Totality

variable [TotalNorms α]

theorem exists_closeGroup (algebra : Algebra) (before : Option (Degree α)) (degree : Degree α) :
    ∃ d, algebra.closeGroup before degree = .ok d := by
  cases before with
  | none => exact ⟨degree, rfl⟩
  | some before => exact TotalNorms.disjunction algebra.disjunction before degree

theorem exists_evaluateRest (algebra : Algebra) {rest : List (Clause α)}
    (before : Option (Degree α)) (degree : Degree α)
    (hrest : Connective.opening ∉ rest.map Clause.connective) :
    ∃ d, algebra.evaluateRest before degree rest = .ok d := by
  induction rest generalizing before degree with
  | nil => exact algebra.exists_closeGroup before degree
  | cons next rest ih =>
      rw [List.map_cons, List.mem_cons, not_or] at hrest
      unfold evaluateRest
      cases hnext : next.connective with
      | opening => exact absurd hnext.symm hrest.1
      | and =>
          obtain ⟨joined, hjoined⟩ :=
            TotalNorms.conjunction algebra.conjunction degree next.degree
          obtain ⟨d, hd⟩ := ih before joined hrest.2
          exact ⟨d, bind_eq_ok.2 ⟨joined, hjoined, hd⟩⟩
      | or =>
          obtain ⟨joined, hjoined⟩ := algebra.exists_closeGroup before degree
          obtain ⟨d, hd⟩ := ih (some joined) next.degree hrest.2
          exact ⟨d, bind_eq_ok.2 ⟨joined, hjoined, hd⟩⟩

theorem evaluateRest_of_reopened (algebra : Algebra) {rest : List (Clause α)}
    (before : Option (Degree α)) (degree : Degree α)
    (hrest : Connective.opening ∈ rest.map Clause.connective) :
    algebra.evaluateRest before degree rest =
      .error (.misplacedConnective (.reopened .statement)) := by
  induction rest generalizing before degree with
  | nil => simp at hrest
  | cons next rest ih =>
      unfold evaluateRest
      cases hnext : next.connective with
      | opening => rfl
      | and =>
          obtain ⟨joined, hjoined⟩ :=
            TotalNorms.conjunction algebra.conjunction degree next.degree
          have hlater : Connective.opening ∈ rest.map Clause.connective := by
            simpa [hnext] using hrest
          exact bind_eq_error.2 (.inr ⟨joined, hjoined, ih before joined hlater⟩)
      | or =>
          obtain ⟨joined, hjoined⟩ := algebra.exists_closeGroup before degree
          have hlater : Connective.opening ∈ rest.map Clause.connective := by
            simpa [hnext] using hrest
          exact bind_eq_error.2 (.inr ⟨joined, hjoined, ih (some joined) next.degree hlater⟩)

theorem exists_evaluate (algebra : Algebra) {clauses : List (Clause α)}
    (h : Connective.WellFormed (clauses.map Clause.connective)) :
    ∃ d, algebra.evaluate clauses = .ok d := by
  cases clauses with
  | nil => exact h.elim
  | cons first rest =>
      obtain ⟨hfirst, hrest⟩ := h
      rw [evaluate, if_pos hfirst]
      exact algebra.exists_evaluateRest none first.degree hrest

theorem evaluate_of_fault (algebra : Algebra) {clauses : List (Clause α)}
    {fault : ConnectiveFault}
    (h : ConnectiveFault.find? .statement (clauses.map Clause.connective) = some fault) :
    algebra.evaluate clauses = .error (.misplacedConnective fault) := by
  cases clauses with
  | nil =>
      cases h
      rfl
  | cons first rest =>
      rw [List.map_cons, ConnectiveFault.find?] at h
      by_cases hfirst : first.connective = .opening
      · rw [if_neg (not_not.2 hfirst)] at h
        rw [evaluate, if_pos hfirst]
        split at h
        · next hrest =>
            cases h
            exact algebra.evaluateRest_of_reopened none first.degree hrest
        · cases h
      · rw [if_pos hfirst] at h
        rw [evaluate, if_neg hfirst]
        cases h
        rfl

end Totality

/-! ## Related degrees -/

/-- Of related degrees both norms make related ones. -/
structure Keeps (algebra : Algebra) (R : Degree α → Degree α → Prop) : Prop where
  conjunction : ∀ {a a' b b'}, R a a' → R b b' →
    Agree R (algebra.conjunction.evaluate a b) (algebra.conjunction.evaluate a' b')
  disjunction : ∀ {a a' b b'}, R a a' → R b b' →
    Agree R (algebra.disjunction.evaluate a b) (algebra.disjunction.evaluate a' b')

end Algebra

structure Clause.Related (R : Degree α → Degree α → Prop) (c c' : Clause α) : Prop where
  connective : c.connective = c'.connective
  degree : R c.degree c'.degree

namespace Algebra.Keeps

variable {algebra : Algebra} {R : Degree α → Degree α → Prop}

theorem closeGroup (h : algebra.Keeps R) {before before' : Option (Degree α)}
    {group group' : Degree α} (hbefore : Option.Rel R before before') (hgroup : R group group') :
    Agree R (algebra.closeGroup before group) (algebra.closeGroup before' group') := by
  cases hbefore with
  | none => exact .ok hgroup
  | some hdegree => exact h.disjunction hdegree hgroup

theorem evaluateRest (h : algebra.Keeps R) {rest rest' : List (Clause α)}
    (hrest : List.Forall₂ (Clause.Related R) rest rest') {before before' : Option (Degree α)}
    {group group' : Degree α} (hbefore : Option.Rel R before before') (hgroup : R group group') :
    Agree R (algebra.evaluateRest before group rest)
      (algebra.evaluateRest before' group' rest') := by
  induction hrest generalizing before before' group group' with
  | nil => exact h.closeGroup hbefore hgroup
  | @cons c c' _ _ hc _ ih =>
      unfold Algebra.evaluateRest
      rw [← hc.connective]
      cases c.connective with
      | opening => exact .error _
      | and => exact (h.conjunction hgroup hc.degree).bind fun _ _ hjoined => ih hbefore hjoined
      | or =>
          exact (h.closeGroup hbefore hgroup).bind fun _ _ hjoined => ih (.some hjoined) hc.degree

theorem evaluate (h : algebra.Keeps R) {clauses clauses' : List (Clause α)}
    (hclauses : List.Forall₂ (Clause.Related R) clauses clauses') :
    Agree R (algebra.evaluate clauses) (algebra.evaluate clauses') := by
  cases hclauses with
  | nil => exact .error _
  | @cons c c' _ _ hc hrest =>
      rw [Algebra.evaluate, Algebra.evaluate, ← hc.connective]
      by_cases hopening : c.connective = .opening
      · rw [if_pos hopening, if_pos hopening]
        exact h.evaluateRest hrest .none hc.degree
      · rw [if_neg hopening, if_neg hopening]
        exact .error _

end Algebra.Keeps

end FuzzyInference
