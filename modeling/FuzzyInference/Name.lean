import FuzzyInference.Text.LowerCase

/-!
# Names

Variables, rules and facts are found by a label, the fuzzy sets of a variable by
the state they describe.  Names are compared without regard to white space and
letter case: what is stored is the folded text, and folding it again changes
nothing.
-/

namespace FuzzyInference

def nameLimit : Nat := 64

inductive NameFault
  | empty
  | tooLong (text : String)
deriving DecidableEq, Repr

structure IsName (text : String) : Prop where
  folded : ∀ c ∈ text.toList, Text.IsFolded c
  ne_empty : text ≠ ""
  length_le : text.length ≤ nameLimit

structure Name where
  text : String
  isName : IsName text
deriving DecidableEq

namespace Name

/-- What a name's length is counted on: the folded text. -/
def normalize (raw : String) : String := String.ofList (Text.fold raw.toList)

def ofRaw (raw : String) : Except NameFault Name :=
  if hempty : normalize raw = "" then .error .empty
  else if hlong : nameLimit < (normalize raw).length then .error (.tooLong (normalize raw))
  else .ok
    { text := normalize raw
      isName :=
        { folded := by
            intro c hc
            rw [normalize, String.toList_ofList] at hc
            exact Text.isFolded_of_mem_fold hc
          ne_empty := hempty
          length_le := Nat.le_of_not_lt hlong } }

/-- Names sort by their characters' codes. -/
instance : Ord Name := ⟨fun a b => compare a.text b.text⟩

theorem normalize_normalize (raw : String) : normalize (normalize raw) = normalize raw := by
  rw [normalize, normalize, String.toList_ofList, Text.fold_fold]

theorem normalize_text (name : Name) : normalize name.text = name.text := by
  rw [normalize, Text.fold_eq_self name.isName.folded, String.ofList_toList]

@[simp] theorem ofRaw_text (name : Name) : ofRaw name.text = .ok name := by
  have hempty := name.isName.ne_empty
  have hlength := Nat.not_lt_of_le name.isName.length_le
  simp only [ofRaw, normalize_text, hempty, hlength, ↓reduceDIte]

end Name

/-- The name of a variable, a rule or a fact. -/
structure Label extends Name
deriving DecidableEq

/-- The name of one fuzzy set of a variable. -/
structure State extends Name
deriving DecidableEq

def Label.ofRaw (raw : String) : Except NameFault Label := Label.mk <$> Name.ofRaw raw

def State.ofRaw (raw : String) : Except NameFault State := State.mk <$> Name.ofRaw raw

instance : Ord Label := ⟨fun a b => compare a.toName b.toName⟩

@[simp] theorem Label.ofRaw_text (label : Label) : Label.ofRaw label.text = .ok label := by
  rw [Label.ofRaw, Name.ofRaw_text]
  rfl

@[simp] theorem State.ofRaw_text (state : State) : State.ofRaw state.text = .ok state := by
  rw [State.ofRaw, Name.ofRaw_text]
  rfl

end FuzzyInference
