import FuzzyInference.Fault
import FuzzyInference.Scalar

/-!
# Facts

The crisp values that a system is run on, one for each label, in the order in
which they were added.
-/

namespace FuzzyInference

structure Fact (α : Type) [Scalar α] where
  label : Label
  value : α
  finite : Scalar.isFinite value = true

structure Facts (α : Type) [Scalar α] where
  toList : List (Fact α)
  distinct : (toList.map Fact.label).Nodup

namespace Facts

variable {α : Type} [Scalar α]

def empty : Facts α := ⟨[], List.nodup_nil⟩

def size (facts : Facts α) : Nat := facts.toList.length

def isEmpty (facts : Facts α) : Bool := facts.toList.isEmpty

def labels (facts : Facts α) : List Label := facts.toList.map Fact.label

def find? (facts : Facts α) (label : Label) : Option (Fact α) :=
  facts.toList.find? fun fact => fact.label = label

def get (facts : Facts α) (label : Label) : Except (Fault α) α :=
  match facts.find? label with
  | some fact => .ok fact.value
  | none => .error (.missingFact label)

def contains (facts : Facts α) (raw : String) : Bool :=
  match Label.ofRaw raw with
  | .ok label => label ∈ facts.labels
  | .error _ => false

def fact (raw : String) (value : α) : Except (Fault α) (Fact α) := do
  let label ← Label.named raw
  if h : Scalar.isFinite value = true then return ⟨label, value, h⟩
  else throw (.notFinite value)

def add (facts : Facts α) (raw : String) (value : α) : Except (Fault α) (Facts α) := do
  let new ← fact raw value
  if h : new.label ∈ facts.toList.map Fact.label then throw (.duplicateFact new.label)
  else return {
    toList := facts.toList ++ [new]
    distinct := by
      rw [List.map_append, List.nodup_append]
      refine ⟨facts.distinct, by simp, ?_⟩
      intro a ha b hb heq
      have hb' : b = new.label := by simpa using hb
      exact h (hb' ▸ heq ▸ ha) }

/-- The facts with another value under one label, each in its place. -/
def update (facts : Facts α) (raw : String) (value : α) : Except (Fault α) (Facts α) := do
  let new ← fact raw value
  if new.label ∈ facts.labels then
    return {
      toList := facts.toList.map fun old => if old.label = new.label then new else old
      distinct := by
        have hlabels : (fun old : Fact α =>
            (if old.label = new.label then new else old).label) = Fact.label := by
          funext old
          split
          · next heq => exact heq.symm
          · rfl
        rw [List.map_map, Function.comp_def, hlabels]
        exact facts.distinct }
  else throw (.missingFact new.label)

def erase (facts : Facts α) (label : Label) : Facts α :=
  { toList := facts.toList.filter fun fact => fact.label ≠ label
    distinct := facts.distinct.sublist ((List.filter_sublist).map _) }

def remove? (facts : Facts α) (raw : String) : Option (Fact α × Facts α) := do
  let label ← (Label.ofRaw raw).toOption
  let fact ← facts.find? label
  return (fact, facts.erase label)

end Facts

end FuzzyInference
