/-!
# Connectives

A statement, a condition and a rule are each a sequence of clauses, and a
connective says how a clause attaches to those before it.  The first clause
opens the sequence and no other does; the main statement says that the check
finds a fault in exactly the other sequences.
-/

namespace FuzzyInference

inductive Connective
  | opening
  | and
  | or
deriving DecidableEq, Repr

namespace Connective

def keyword : Connective → String
  | opening => "IF"
  | and => "AND"
  | or => "OR"

/-- The sequence opens with its first clause and does not open again. -/
def WellFormed : List Connective → Prop
  | [] => False
  | first :: rest => first = opening ∧ opening ∉ rest

instance : DecidablePred WellFormed
  | [] => inferInstanceAs (Decidable False)
  | first :: rest => inferInstanceAs (Decidable (first = opening ∧ opening ∉ rest))

theorem keyword_injective {c c' : Connective} (h : c.keyword = c'.keyword) : c = c' := by
  revert h
  cases c <;> cases c' <;> decide

theorem WellFormed.exists_cons {β : Type} {connective : β → Connective} {l : List β}
    (h : WellFormed (l.map connective)) :
    ∃ first rest, l = first :: rest ∧ connective first = .opening := by
  cases l with
  | nil => exact h.elim
  | cons first rest => exact ⟨first, rest, rfl, h.1⟩

end Connective

inductive Whole
  | statement
  | condition
  | rule
deriving DecidableEq, Repr

def Whole.text : Whole → String
  | statement => "statement"
  | condition => "condition"
  | rule => "rule"

inductive ConnectiveFault
  | nothing
  | unopened (whole : Whole)
  | reopened (whole : Whole)
deriving DecidableEq, Repr

namespace ConnectiveFault

def message : ConnectiveFault → String
  | nothing => "nothing to evaluate"
  | unopened whole => "a " ++ whole.text ++ " must start with IF"
  | reopened whole => "IF may only start a " ++ whole.text

def find? (whole : Whole) : List Connective → Option ConnectiveFault
  | [] => some nothing
  | first :: rest =>
      if first ≠ .opening then some (unopened whole)
      else if .opening ∈ rest then some (reopened whole)
      else none

theorem find?_eq_none_iff {whole : Whole} {connectives : List Connective} :
    find? whole connectives = none ↔ Connective.WellFormed connectives := by
  cases connectives with
  | nil => simp [find?, Connective.WellFormed]
  | cons first rest =>
      by_cases hfirst : first = .opening <;> by_cases hrest : .opening ∈ rest <;>
        simp [find?, Connective.WellFormed, hfirst, hrest]

end ConnectiveFault

end FuzzyInference
