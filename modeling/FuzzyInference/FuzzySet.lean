import FuzzyInference.Shape

/-!
# Fuzzy sets

A membership function together with the state it describes.
-/

namespace FuzzyInference

structure FuzzySet (α : Type) [Scalar α] where
  state : State
  shape : Shape α

namespace FuzzySet

variable {α : Type} [Scalar α]

def named (state : String) (shape : Shape α) : Except (Fault α) (FuzzySet α) := do
  return ⟨← State.named state, shape⟩

def membership (s : FuzzySet α) (x : α) : Degree α := s.shape.membership x

def lower (s : FuzzySet α) : α := s.shape.lower

def upper (s : FuzzySet α) : α := s.shape.upper

def centroid (s : FuzzySet α) : α := s.shape.centroid

/-- Something belongs to the set fully. -/
def isNormal (s : FuzzySet α) : Bool := s.shape.highest.isOne

/-- The heights of the defining points only rise or only fall. -/
def isConvex (s : FuzzySet α) : Bool := s.shape.isMonotonic

def complementAt (s : FuzzySet α) (x : α) : Degree α := (s.membership x).complement

def unionAt (s t : FuzzySet α) (x : α) : Degree α := max (s.membership x) (t.membership x)

def intersectionAt (s t : FuzzySet α) (x : α) : Degree α := min (s.membership x) (t.membership x)

instance : BEq (FuzzySet α) := ⟨fun s t => s.state == t.state && s.shape == t.shape⟩

end FuzzySet

end FuzzyInference
