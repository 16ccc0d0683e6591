import FuzzyInference.Crisp.Reading

/-!
# Defuzzifiers

The one number that stands for everything concluded on an output variable.  It
is read off the merged curve by one of five methods, or is the average of the
centroids of the sets, weighted by the strength of each.
-/

namespace FuzzyInference

variable {α : Type} [Scalar α]

inductive Method
  | centroid
  | bisector
  | meanOfMaximum
  | largestOfMaximum
  | smallestOfMaximum
deriving DecidableEq, Repr

def Method.all : List Method :=
  [centroid, bisector, meanOfMaximum, largestOfMaximum, smallestOfMaximum]

def Method.name : Method → String
  | centroid => "centroid"
  | bisector => "bisector"
  | meanOfMaximum => "mean_of_maximum"
  | largestOfMaximum => "largest_of_maximum"
  | smallestOfMaximum => "smallest_of_maximum"

inductive Defuzzifier
  | merging (method : Method)
  | weightedAverage
deriving DecidableEq, Repr

namespace Method

open Polyline in
def read? (method : Method) (domain : Domain) (curve : List (Corner α)) : Option α :=
  match method with
  | .centroid => centroid? domain curve
  | .bisector =>
      match domain with
      | .discrete => discreteBisector? curve
      | .continuous => continuousBisector? curve
  | .meanOfMaximum => mean? (highestPositions curve)
  | .largestOfMaximum => Scalar.greatest? (highestPositions curve)
  | .smallestOfMaximum => Scalar.least? (highestPositions curve)

end Method

/-! ## Groups -/

/-- The subject of a group, which all of it shares and which something in it
was concluded on. -/
def groupSubject : List (Activation α) → Except (Fault α) Label
  | [] => .error .noOutputs
  | first :: rest =>
      match rest.find? fun a => a.subject ≠ first.subject with
      | some other => .error (.mixedSubjects first.subject other.subject)
      | none =>
          if (first :: rest).all fun a => a.strength.isZero then
            .error (.nothingFired first.subject)
          else .ok first.subject

def groupDomain? (group : List (Activation α)) : Option Domain :=
  if group.all fun a => a.set.shape.isSingleton then some .discrete
  else if group.any fun a => a.set.shape.isSingleton then none
  else some .continuous

structure Outcome (α : Type) where
  subject : Label
  value : α

def Outcome.text [Numeral α] (o : Outcome α) : String :=
  o.subject.text ++ " = " ++ Numeral.text o.value

def Method.defuzzify (method : Method) (group : List (Activation α)) :
    Except (Fault α) (Outcome α) := do
  let subject ← groupSubject group
  let some domain := groupDomain? group | throw (.mixedKinds subject)
  let curve := Aggregate.curve domain group
  if curve.all fun p => p.y == 0 then throw (.nothingFired subject)
  let some value := method.read? domain curve | throw (.nothingFired subject)
  return ⟨subject, value⟩

def averageCentroid (group : List (Activation α)) : Except (Fault α) (Outcome α) := do
  let subject ← groupSubject group
  let weighted := group.map fun a => (a.set.centroid, a.strength.value)
  let some value := weightedMean? weighted | throw (.nothingFired subject)
  return ⟨subject, value⟩

def Defuzzifier.defuzzify (d : Defuzzifier) (group : List (Activation α)) :
    Except (Fault α) (Outcome α) :=
  match d with
  | merging method => method.defuzzify group
  | weightedAverage => averageCentroid group

end FuzzyInference
