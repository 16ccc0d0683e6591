import FuzzyInference.Facts
import FuzzyInference.Index

/-!
# Indexed facts

Facts that are found without a search: an index holds the value of each
variable, and the labels are kept in the order in which they were added.  A
change takes a step for each of the two, and what has been changed stays
changed where a later step fails.
-/

namespace FuzzyInference

structure Observation (α : Type) where
  label : Label
  value : α

def Observation.named {α : Type} [Scalar α] (raw : String) (value : α) :
    Except (Fault α) (Observation α) := do
  let label ← Label.named raw
  if Scalar.isFinite value then return ⟨label, value⟩ else throw (.notFinite value)

/-- Observations under their labels, and the labels in order. -/
structure IndexedFacts (α : Type) where
  data : Index (Observation α)
  order : List Label

namespace IndexedFacts

variable {α : Type} [Scalar α]

def empty : IndexedFacts α := ⟨.empty, []⟩

/-! ## Changes -/

def add (raw : String) (value : α) : EStateM (Fault α) (IndexedFacts α) Unit := do
  let new ← liftExcept (Observation.named raw value)
  if (← get).data.contains new.label then throw (.duplicateFact new.label)
  modify fun s => { s with order := s.order ++ [new.label] }
  modify fun s => { s with data := s.data.insert new.label new }

def update (raw : String) (value : α) : EStateM (Fault α) (IndexedFacts α) Unit := do
  let new ← liftExcept (Observation.named raw value)
  let some old := (← get).data.get? new.label | throw (.missingFact new.label)
  modify fun s => { s with data := s.data.insert new.label { old with value := new.value } }

def remove? (raw : String) : OptionT (StateM (IndexedFacts α)) (Observation α) := do
  let some label := (Label.ofRaw raw).toOption | failure
  let some removed := (← get).data.get? label | failure
  modify fun s => { s with data := s.data.erase label }
  modify fun s => { s with order := s.order.filter fun l => l ≠ label }
  return removed

/-! ## Questions -/

def get (s : IndexedFacts α) (label : Label) : Except (Fault α) (Observation α) :=
  match s.data.get? label with
  | some observation => .ok observation
  | none => .error (.missingFact label)

def contains (s : IndexedFacts α) (raw : String) : Bool :=
  match Label.ofRaw raw with
  | .ok label => s.data.contains label
  | .error _ => false

def toList (s : IndexedFacts α) : List (Observation α) := s.order.filterMap s.data.get?

def size (s : IndexedFacts α) : Nat := s.data.size

def isEmpty (s : IndexedFacts α) : Bool := s.size == 0

end IndexedFacts

/-! ## Runs -/

inductive FactChange (α : Type)
  | add (raw : String) (value : α)
  | update (raw : String) (value : α)
  | remove (raw : String)
  | clear

namespace IndexedFacts

variable {α : Type} [Scalar α]

/-- The facts as a change leaves them, also where that fails. -/
def apply (s : IndexedFacts α) : FactChange α → IndexedFacts α
  | .add raw value => match (add raw value).run s with | .ok _ s | .error _ s => s
  | .update raw value => match (update raw value).run s with | .ok _ s | .error _ s => s
  | .remove raw => ((remove? raw).run.run s).2
  | .clear => empty

def run (changes : List (FactChange α)) : IndexedFacts α := changes.foldl apply empty

end IndexedFacts

end FuzzyInference
