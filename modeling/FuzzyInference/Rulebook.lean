import FuzzyInference.Rule

/-!
# Rulebooks

The rules in force, each found by its label or by the key it was given when it
was added, in the order in which they were added.  Keys count up and are never
given again, so a key finds the rule it was given to or none.
-/

namespace FuzzyInference

structure RuleKey where
  index : Nat
deriving DecidableEq, Repr

structure Entry (α : Type) [Scalar α] where
  key : RuleKey
  rule : Rule α

structure Rulebook (α : Type) [Scalar α] where
  entries : List (Entry α)
  /-- The index of the key that the next rule is given. -/
  fresh : Nat
  distinct : (entries.map fun e => e.rule.label).Nodup
  ascending : entries.Pairwise fun e f => e.key.index < f.key.index
  given : ∀ e ∈ entries, e.key.index < fresh

namespace Rulebook

variable {α : Type} [Scalar α]

def empty : Rulebook α := ⟨[], 0, List.nodup_nil, .nil, by simp⟩

def toList (book : Rulebook α) : List (Rule α) := book.entries.map Entry.rule

def size (book : Rulebook α) : Nat := book.entries.length

def isEmpty (book : Rulebook α) : Bool := book.entries.isEmpty

def labels (book : Rulebook α) : List Label := book.toList.map Rule.label

def contains (book : Rulebook α) (label : Label) : Bool := label ∈ book.labels

def get (book : Rulebook α) (label : Label) : Except (Fault α) (Rule α) :=
  match book.toList.find? fun rule => rule.label = label with
  | some rule => .ok rule
  | none => .error (.missingRule label)

def find? (book : Rulebook α) (key : RuleKey) : Option (Rule α) :=
  (book.entries.find? fun e => e.key = key).map Entry.rule

def add (book : Rulebook α) (rule : Rule α) :
    Except (Fault α) (RuleKey × Rulebook α) :=
  if h : rule.label ∈ book.entries.map fun e => e.rule.label then
    .error (.duplicateRule rule.label)
  else
    let key : RuleKey := ⟨book.fresh⟩
    .ok (key, {
      entries := book.entries ++ [⟨key, rule⟩]
      fresh := book.fresh + 1
      distinct := by
        rw [List.map_append, List.nodup_append]
        refine ⟨book.distinct, by simp, ?_⟩
        intro a ha b hb heq
        have hb' : b = rule.label := by simpa using hb
        exact h (hb' ▸ heq ▸ ha)
      ascending := by
        refine List.pairwise_append.2 ⟨book.ascending, List.pairwise_singleton _ _, ?_⟩
        intro e he f hf
        rw [List.mem_singleton.1 hf]
        exact book.given e he
      given := by
        intro e he
        rcases List.mem_append.1 he with he | he
        · exact Nat.lt_succ_of_lt (book.given e he)
        · rw [List.mem_singleton.1 he]
          exact Nat.lt_succ_self _ })

/-- The rulebook without the rule of that label.  Its key is not given again. -/
def erase (book : Rulebook α) (label : Label) : Rulebook α :=
  { entries := book.entries.filter fun e => e.rule.label ≠ label
    fresh := book.fresh
    distinct := book.distinct.sublist ((List.filter_sublist).map _)
    ascending := book.ascending.sublist List.filter_sublist
    given := fun e he => book.given e (List.mem_filter.1 he).1 }

def remove (book : Rulebook α) (label : Label) :
    Except (Fault α) (Rule α × Rulebook α) := do
  return (← book.get label, book.erase label)

def clear (book : Rulebook α) : Rulebook α :=
  { entries := []
    fresh := book.fresh
    distinct := List.nodup_nil
    ascending := .nil
    given := by simp }

end Rulebook

end FuzzyInference
