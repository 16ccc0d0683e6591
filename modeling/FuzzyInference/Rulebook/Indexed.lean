import FuzzyInference.Index
import FuzzyInference.Rulebook
import FuzzyInference.Slots

/-!
# Indexed rulebooks

A rulebook whose rules are found without a search: they stand in slots, an
index leads from a label to the key of its rule, and the keys are kept in the
order in which they were given.  A change takes several steps, one for each of
the three, and what has been changed stays changed where a later step fails.
-/

namespace FuzzyInference

/-- Rules in slots, the key under each label, and the keys in order. -/
structure IndexedRules (σ κ : Type) where
  slots : σ
  byLabel : Index κ
  order : List κ

namespace IndexedRules

variable {α σ κ : Type} [Scalar α] [DecidableEq κ] [Slots σ κ (Rule α)]

def empty : IndexedRules σ κ := ⟨Slots.empty, .empty, []⟩

/-! ## Changes -/

def add (rule : Rule α) : EStateM (Fault α) (IndexedRules σ κ) κ := do
  if (← get).byLabel.contains rule.label then throw (.duplicateRule rule.label)
  let (key, slots) := Slots.insert rule (← get).slots
  modify fun s => { s with slots }
  modify fun s => { s with byLabel := s.byLabel.insert rule.label key }
  modify fun s => { s with order := s.order ++ [key] }
  return key

def remove (label : Label) : EStateM (Fault α) (IndexedRules σ κ) (Rule α) := do
  let some key := (← get).byLabel.get? label | throw (.missingRule label)
  modify fun s => { s with byLabel := s.byLabel.erase label }
  modify fun s => { s with order := s.order.filter fun k => k ≠ key }
  let (removed, slots) := Slots.remove key (← get).slots
  modify fun s => { s with slots }
  let some rule := removed | throw (.missingRule label)
  return rule

def clear (s : IndexedRules σ κ) : IndexedRules σ κ := ⟨Slots.clear s.slots, .empty, []⟩

/-! ## Questions -/

def get (s : IndexedRules σ κ) (label : Label) : Except (Fault α) (Rule α) :=
  match s.byLabel.get? label >>= Slots.get? s.slots with
  | some rule => .ok rule
  | none => .error (.missingRule label)

def find? (s : IndexedRules σ κ) (key : κ) : Option (Rule α) := Slots.get? s.slots key

def contains (s : IndexedRules σ κ) (label : Label) : Bool := s.byLabel.contains label

def toList (s : IndexedRules σ κ) : List (Rule α) := s.order.filterMap (Slots.get? s.slots)

def size (s : IndexedRules σ κ) : Nat := Slots.size s.slots

def isEmpty (s : IndexedRules σ κ) : Bool := s.size == 0

end IndexedRules

/-! ## Runs -/

inductive RuleChange (α : Type) [Scalar α]
  | add (rule : Rule α)
  | remove (label : Label)
  | clear

namespace IndexedRules

variable {α σ κ : Type} [Scalar α] [DecidableEq κ] [Slots σ κ (Rule α)]

/-- The rulebook as a change leaves it, also where that fails. -/
def apply (s : IndexedRules σ κ) : RuleChange α → IndexedRules σ κ
  | .add rule => match (add rule).run s with | .ok _ s | .error _ s => s
  | .remove label => match (remove label).run s with | .ok _ s | .error _ s => s
  | .clear => s.clear

def run (changes : List (RuleChange α)) : IndexedRules σ κ := changes.foldl apply empty

end IndexedRules

end FuzzyInference
