import FuzzyInference.Connective
import FuzzyInference.Decimal.Numeral
import FuzzyInference.Name

/-!
# Faults

Everything that can be wrong with a fuzzy system, or with the facts it is run
on.  A fault carries what it is about and is put into words in one place.
-/

namespace FuzzyInference

inductive Fault (α : Type)
  | notFinite (value : α)
  | outsideUnit (value : α)
  | negativePosition (x : α)
  | unordered (before after : α)
  | noPoints
  | reversedHeights (low high : α)
  | reversedBounds (lower upper : α)
  | setOutOfBounds (subject : Label) (state : State) (lower upper : α)
  | duplicateState (subject : Label) (state : State)
  | unknownState (subject : Label) (state : State)
  | noSets
  | badName (fault : NameFault)
  | noPremises
  | incompleteRule (label : Label)
  | misplacedConnective (fault : ConnectiveFault)
  | unknownOperator (name : String)
  | duplicateFact (label : Label)
  | missingFact (label : Label)
  | duplicateRule (label : Label)
  | missingRule (label : Label)
  | nothingFired (subject : Label)
  | noOutputs
  | mixedSubjects (expected found : Label)
  | mixedKinds (subject : Label)

def NameFault.message : NameFault → String
  | empty => "label is empty after normalization"
  | tooLong text =>
      "label `" ++ text ++ "` is longer than " ++ toString nameLimit ++ " characters"

private def quoted (name : Name) : String := "`" ++ name.text ++ "`"

open Numeral in
def Fault.message {α : Type} [Numeral α] : Fault α → String
  | notFinite value => "value " ++ text value ++ " is not finite"
  | outsideUnit value => "value " ++ text value ++ " is outside of the unit interval [0, 1]"
  | negativePosition x => "point x value " ++ text x ++ " must not be negative"
  | unordered before after =>
      "points must be ordered by x, but " ++ text after ++ " follows " ++ text before
  | noPoints => "a membership function needs at least one point"
  | reversedHeights low high =>
      "minimum height " ++ text low ++ " exceeds maximum height " ++ text high
  | reversedBounds lower upper =>
      "lower bound " ++ text lower ++ " exceeds upper bound " ++ text upper
  | setOutOfBounds subject state lower upper =>
      "fuzzy set " ++ quoted state.toName ++ " spans [" ++ text lower ++ ", " ++ text upper ++
        "] which leaves the bounds of " ++ quoted subject.toName
  | duplicateState subject state =>
      "state " ++ quoted state.toName ++ " is declared twice in " ++ quoted subject.toName
  | unknownState subject state =>
      "state " ++ quoted state.toName ++ " is not a member of " ++ quoted subject.toName
  | noSets => "a linguistic variable needs at least one fuzzy set"
  | badName fault => fault.message
  | noPremises => "a condition needs at least one premise"
  | incompleteRule label =>
      "rule " ++ quoted label.toName ++ " needs at least one condition and one conclusion"
  | misplacedConnective fault => "invalid connective sequence: " ++ fault.message
  | unknownOperator name => "unknown operator `" ++ name ++ "`"
  | duplicateFact label =>
      "variable " ++ quoted label.toName ++ " already exists in the database"
  | missingFact label =>
      "variable " ++ quoted label.toName ++ " does not exist in the database"
  | duplicateRule label => "rule " ++ quoted label.toName ++ " already exists in the rulebase"
  | missingRule label => "rule " ++ quoted label.toName ++ " does not exist in the rulebase"
  | nothingFired subject =>
      "every output for " ++ quoted subject.toName ++ " has a firing strength of zero"
  | noOutputs => "nothing to defuzzify"
  | mixedSubjects expected found =>
      "outputs for " ++ quoted expected.toName ++ " and " ++ quoted found.toName ++
        " cannot be defuzzified together"
  | mixedKinds subject =>
      "outputs for " ++ quoted subject.toName ++ " mix singleton and continuous sets"

variable {α : Type}

/-- The label written as `raw`, where a text that names nothing is a fault. -/
def Label.named (raw : String) : Except (Fault α) Label := (Label.ofRaw raw).mapError .badName

def State.named (raw : String) : Except (Fault α) State := (State.ofRaw raw).mapError .badName

end FuzzyInference
