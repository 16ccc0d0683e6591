import FuzzyInference.Proofs.Binary.Degree
import FuzzyInference.Proofs.Decimal.Numeral
import FuzzyInference.Proofs.Fallible
import FuzzyInference.Proofs.Text.Words
import FuzzyInference.Rule

/-!
# Printed rules

Names have neither white space nor capital letters, so in the text of a rule none
of them is mistaken for a keyword, and unless names contain parentheses the text
is read as words in one way only.  The words say everything about the rule but how
the sets of its variables are shaped.
-/

namespace FuzzyInference

open Text

/-! ## Names among other words -/

namespace Name

/-- The name has no parentheses. -/
def Bare (name : Name) : Prop := '(' ∉ name.text.toList ∧ ')' ∉ name.text.toList

instance : DecidablePred Bare := fun _ => inferInstanceAs (Decidable (_ ∧ _))

theorem isPlain_of_bare {name : Name} (h : name.Bare) :
    ∀ c ∈ name.text.toList, isPlain c = true := by
  refine fun c hc => isPlain_iff.2
    ⟨?_, ne_of_mem_of_not_mem hc h.1, ne_of_mem_of_not_mem hc h.2⟩
  rintro rfl
  exact absurd (name.isName.folded ' ' hc).1 (by decide)

theorem text_ne_of_capital (name : Name) {word : String} {c : Char} (hc : c ∈ word.toList)
    (hcapital : lower c ≠ [c]) : name.text ≠ word := by
  rintro rfl
  exact hcapital (name.isName.folded c hc).2

theorem text_injective {name name' : Name} (h : name.text = name'.text) : name = name' := by
  cases name
  cases name'
  cases h
  rfl

end Name

theorem Label.text_injective {label label' : Label} (h : label.text = label'.text) :
    label = label' := congrArg Label.mk (Name.text_injective h)

theorem State.text_injective {state state' : State} (h : state.text = state'.text) :
    state = state' := congrArg State.mk (Name.text_injective h)

section Propositions

variable {α : Type} [Scalar α] {s s' : List String}

/-! ## Propositions -/

def Copula.words : Copula → List String
  | is => ["IS"]
  | isNot => ["IS", "NOT"]

theorem Copula.readsAs_words (copula : Copula) : ReadsAs copula.keyword copula.words := by
  cases copula with
  | is => exact .word (List.all_eq_true.1 rfl)
  | isNot =>
      have his : ReadsAs "IS" ["IS"] := .word (List.all_eq_true.1 rfl)
      have hnot : ReadsAs "NOT" ["NOT"] := .word (List.all_eq_true.1 rfl)
      exact his.append hnot

namespace Proposition

def words (p : Proposition α) : List String :=
  p.subject.text :: (p.copula.words ++ [p.state.text])

structure Bare (p : Proposition α) : Prop where
  subject : p.subject.Bare
  state : p.state.Bare

instance (p : Proposition α) : Decidable p.Bare :=
  decidable_of_iff (p.subject.Bare ∧ p.state.Bare) ⟨fun h => ⟨h.1, h.2⟩, fun h => ⟨h.1, h.2⟩⟩

structure SaysAs (p p' : Proposition α) : Prop where
  subject : p.subject = p'.subject
  copula : p.copula = p'.copula
  state : p.state = p'.state

variable {p p' : Proposition α}

theorem readsAs_words (h : p.Bare) : ReadsAs p.text p.words :=
  ((ReadsAs.word (Name.isPlain_of_bare h.subject)).append p.copula.readsAs_words).append
    (ReadsAs.word (Name.isPlain_of_bare h.state))

theorem words_append_inj (h : p.words ++ s = p'.words ++ s') : p.SaysAs p' ∧ s = s' := by
  have hnot (state : State) : state.text ≠ "NOT" :=
    state.text_ne_of_capital (c := 'N') (by decide) (by decide +kernel)
  simp only [words, List.cons_append, List.append_assoc, List.cons.injEq] at h
  obtain ⟨hsubject, hrest⟩ := h
  cases hcopula : p.copula <;> cases hcopula' : p'.copula <;>
    simp only [hcopula, hcopula', Copula.words, List.cons_append, List.nil_append,
      List.cons.injEq, true_and] at hrest
  · exact ⟨⟨Label.text_injective hsubject, hcopula.trans hcopula'.symm,
      State.text_injective hrest.1⟩, hrest.2⟩
  · exact absurd hrest.1 (hnot _)
  · exact absurd hrest.1.symm (hnot _)
  · exact ⟨⟨Label.text_injective hsubject, hcopula.trans hcopula'.symm,
      State.text_injective hrest.1⟩, hrest.2⟩

end Proposition

/-! ## Premises -/

namespace Connective

theorem readsAs_keyword (c : Connective) : ReadsAs c.keyword [c.keyword] := by
  cases c <;> exact .word (List.all_eq_true.1 rfl)

end Connective

namespace Premise

def Bare (p : Premise α) : Prop := p.proposition.Bare

instance (p : Premise α) : Decidable p.Bare := inferInstanceAs (Decidable p.proposition.Bare)

def words (p : Premise α) : List String := p.connective.keyword :: p.proposition.words

structure SaysAs (p p' : Premise α) : Prop where
  connective : p.connective = p'.connective
  proposition : p.proposition.SaysAs p'.proposition

theorem readsAs_words {p : Premise α} (h : p.Bare) : ReadsAs p.text p.words :=
  p.connective.readsAs_keyword.append (Proposition.readsAs_words h)

theorem words_append_inj {p p' : Premise α} (h : p.words ++ s = p'.words ++ s') :
    p.SaysAs p' ∧ s = s' := by
  obtain ⟨hkeyword, hrest⟩ := List.cons.inj h
  obtain ⟨hproposition, hs⟩ := Proposition.words_append_inj hrest
  exact ⟨⟨Connective.keyword_injective hkeyword, hproposition⟩, hs⟩

end Premise

end Propositions

/-! ## Conditions -/

namespace Condition

variable {c c' : Condition Float} {s s' : List String}

def weightWords (c : Condition Float) : List String :=
  if c.weight.isOne then [] else ["WITH", Numeral.text c.weight]

def words (c : Condition Float) : List String := c.premises.flatMap Premise.words ++ c.weightWords

def innerWords (c : Condition Float) : List String :=
  c.connective.keyword :: "(" :: c.words.tail ++ [")"]

def Bare (c : Condition Float) : Prop := ∀ p ∈ c.premises, p.Bare

instance (c : Condition Float) : Decidable c.Bare :=
  inferInstanceAs (Decidable (∀ p ∈ c.premises, p.Bare))

structure SaysAs (c c' : Condition Float) : Prop where
  connective : c.connective = c'.connective
  weight : (c.weight == c'.weight) = true
  premises : List.Forall₂ Premise.SaysAs c.premises c'.premises

/-- The words that follow are taken neither for another premise of a condition nor
for its weight. -/
structure Closes (s : List String) : Prop where
  premise : Stops Premise.words (Premise.Bare (α := Float)) s
  weight : s.head? ≠ some "WITH"

theorem stops_of_first {word : String} (h : ∀ connective : Connective, connective.keyword ≠ word)
    (s : List String) : Stops Premise.words (Premise.Bare (α := Float)) (word :: s) :=
  fun p _ _ heq => h p.connective (List.cons.inj heq).1.symm

theorem closes_nil : Closes [] := ⟨stops_nil fun _ => List.cons_ne_nil _ _, nofun⟩

theorem closes_parenthesis (s : List String) : Closes (")" :: s) :=
  ⟨stops_of_first (fun connective => by cases connective <;> decide) s, by simp⟩

theorem closes_then (s : List String) : Closes ("THEN" :: s) :=
  ⟨stops_of_first (fun connective => by cases connective <;> decide) s, by simp⟩

/-- After its connective a premise has a subject and a condition a parenthesis. -/
theorem closes_innerWords (c : Condition Float) (s : List String) : Closes (c.innerWords ++ s) := by
  constructor
  · intro p hp u heq
    have hsubject := (List.cons.inj (List.cons.inj heq).2).1
    exact hp.subject.1 (hsubject ▸ List.mem_singleton.2 rfl)
  · rw [innerWords, List.cons_append, List.cons_append, List.head?_cons]
    cases c.connective <;> decide

/-! ### Reading a condition -/

theorem weight_beq_of_text (h : Numeral.text c.weight = Numeral.text c'.weight) :
    (c.weight == c'.weight) = true := by
  obtain ⟨q, hq⟩ := c.weight.exists_inUnit
  obtain ⟨r, hr⟩ := c'.weight.exists_inUnit
  exact (hq.isValue.beq_iff hr.isValue).2 (Numeral.eq_of_text_eq hq.isValue hr.isValue h)

theorem weightWords_append_inj (hs : s.head? ≠ some "WITH") (hs' : s'.head? ≠ some "WITH")
    (h : c.weightWords ++ s = c'.weightWords ++ s') :
    (c.weight == c'.weight) = true ∧ s = s' := by
  unfold weightWords at h
  by_cases hone : c.weight.isOne = true <;> by_cases hone' : c'.weight.isOne = true
  · rw [if_pos hone, if_pos hone'] at h
    refine ⟨?_, h⟩
    have hlevel := (Binary.ranks.degree_beq_iff (a := c.weight) (b := 1)).1 hone
    have hlevel' := (Binary.ranks.degree_beq_iff (a := c'.weight) (b := 1)).1 hone'
    exact Binary.ranks.degree_beq_iff.2 (hlevel.trans hlevel'.symm)
  · rw [if_pos hone, if_neg hone'] at h
    exact absurd (congrArg List.head? h) hs
  · rw [if_neg hone, if_pos hone'] at h
    exact absurd (congrArg List.head? h).symm hs'
  · rw [if_neg hone, if_neg hone'] at h
    simp only [List.cons_append, List.nil_append, List.cons.injEq, true_and] at h
    exact ⟨weight_beq_of_text h.1, h.2⟩

theorem stops_weightWords (hs : Closes s) :
    Stops Premise.words (Premise.Bare (α := Float)) (c.weightWords ++ s) := by
  unfold weightWords
  split
  · exact hs.premise
  · exact stops_of_first (fun connective => by cases connective <;> decide) _

theorem words_append_inj (hc : c.Bare) (hc' : c'.Bare) (hs : Closes s) (hs' : Closes s')
    (h : c.words ++ s = c'.words ++ s') :
    ((c.weight == c'.weight) = true ∧ List.Forall₂ Premise.SaysAs c.premises c'.premises) ∧
      s = s' := by
  rw [words, words, List.append_assoc, List.append_assoc] at h
  obtain ⟨hpremises, hrest⟩ := flatMap_append_inj
    (fun _ _ _ _ _ _ => Premise.words_append_inj) hc hc' (stops_weightWords hs)
    (stops_weightWords hs') h
  obtain ⟨hweight, hs⟩ := weightWords_append_inj hs.weight hs'.weight hrest
  exact ⟨⟨hweight, hpremises⟩, hs⟩

theorem cons_tail_words (c : Condition Float) : "IF" :: c.words.tail = c.words := by
  obtain ⟨first, rest, hpremises, hopening⟩ := c.wellFormed.exists_cons
  rw [words, hpremises, List.flatMap_cons, Premise.words, hopening]
  rfl

theorem innerWords_append_inj (hc : c.Bare) (hc' : c'.Bare)
    (h : c.innerWords ++ s = c'.innerWords ++ s') : c.SaysAs c' ∧ s = s' := by
  simp only [innerWords, List.cons_append, List.append_assoc, List.nil_append, List.cons.injEq,
    true_and] at h
  obtain ⟨hkeyword, hrest⟩ := h
  have hwords := congrArg ("IF" :: ·) hrest
  simp only [← List.cons_append, cons_tail_words] at hwords
  obtain ⟨⟨hweight, hpremises⟩, hs⟩ :=
    words_append_inj hc hc' (closes_parenthesis s) (closes_parenthesis s') hwords
  exact ⟨⟨Connective.keyword_injective hkeyword, hweight, hpremises⟩, (List.cons.inj hs).2⟩

/-! ### The text of a condition -/

theorem isPlain_numeral (a : Degree Float) : ∀ d ∈ (Numeral.text a).toList, isPlain d = true := by
  obtain ⟨u, hu⟩ := a.exists_inUnit
  intro d hd
  rcases Numeral.isDigit_or_mark hu.isValue d hd with hdigit | rfl | rfl
  · refine isPlain_iff.2 ⟨?_, ?_, ?_⟩ <;> rintro rfl <;> exact absurd hdigit (by decide)
  · rfl
  · rfl

theorem readsAs_weight (c : Condition Float) {text : String} {words : List String}
    (h : ReadsAs text words) : ReadsAs (text ++ c.weightText) (words ++ c.weightWords) := by
  unfold weightText weightWords
  split
  · rwa [String.append_empty, List.append_nil]
  · have hwith : ReadsAs "WITH" ["WITH"] := .word (List.all_eq_true.1 rfl)
    have hsplit : text ++ (" WITH " ++ Numeral.text c.weight) =
        text ++ " " ++ ("WITH" ++ " " ++ Numeral.text c.weight) := by
      rw [show " WITH " = " " ++ "WITH" ++ " " from rfl]
      simp only [String.append_assoc]
    rw [hsplit]
    exact h.append (hwith.append (ReadsAs.word (isPlain_numeral c.weight)))

theorem readsAs_words (hc : c.Bare) : ReadsAs c.text c.words := by
  obtain ⟨first, rest, hpremises, -⟩ := c.wellFormed.exists_cons
  have hne : c.premises.map Premise.text ≠ [] := by simp [hpremises]
  have htext := ReadsAs.intercalate (ReadsAs.map fun p hp => Premise.readsAs_words (hc p hp)) hne
  rw [← List.flatMap_def] at htext
  exact c.readsAs_weight htext

theorem readsAs_innerWords (hc : c.Bare) :
    ReadsAs (c.connective.keyword ++ " (" ++ c.innerText ++ ")") c.innerWords := by
  have hinner : ReadsAs c.innerText c.words.tail := by
    obtain ⟨first, rest, hpremises, -⟩ := c.wellFormed.exists_cons
    rw [Bare, hpremises, List.forall_mem_cons] at hc
    have htext := ReadsAs.intercalate (.cons (Proposition.readsAs_words hc.1)
      (ReadsAs.map fun p hp => Premise.readsAs_words (hc.2 p hp))) (List.cons_ne_nil _ _)
    rw [List.flatten_cons, ← List.flatMap_def] at htext
    rw [innerText, words, hpremises]
    exact c.readsAs_weight htext
  have hsplit : c.connective.keyword ++ " (" ++ c.innerText ++ ")" =
      c.connective.keyword ++ " " ++ ("(" ++ c.innerText ++ ")") := by
    rw [show " (" = " " ++ "(" from rfl]
    simp only [String.append_assoc]
  rw [hsplit]
  exact c.connective.readsAs_keyword.append hinner.parenthesize

end Condition

/-! ## Rules -/

namespace Conclusion

variable {c c' : Conclusion Float} {s s' : List String}

def words (c : Conclusion Float) : List String := "THEN" :: c.proposition.words

theorem readsAs_words (hc : c.proposition.Bare) : ReadsAs c.text c.words := by
  have hthen : ReadsAs "THEN" ["THEN"] := .word (List.all_eq_true.1 rfl)
  exact hthen.append (Proposition.readsAs_words hc)

theorem words_append_inj (h : c.words ++ s = c'.words ++ s') :
    c.proposition.SaysAs c'.proposition ∧ s = s' :=
  Proposition.words_append_inj (List.cons.inj h).2

end Conclusion

namespace Rule

variable {rule rule' : Rule Float}

structure Bare (rule : Rule Float) : Prop where
  label : rule.label.Bare
  conditions : ∀ c ∈ rule.conditions, c.Bare
  conclusions : ∀ c ∈ rule.conclusions, c.proposition.Bare

instance (rule : Rule Float) : Decidable rule.Bare :=
  decidable_of_iff (rule.label.Bare ∧ (∀ c ∈ rule.conditions, c.Bare) ∧
      ∀ c ∈ rule.conclusions, c.proposition.Bare)
    ⟨fun h => ⟨h.1, h.2.1, h.2.2⟩, fun h => ⟨h.1, h.2, h.3⟩⟩

structure SaysAs (rule rule' : Rule Float) : Prop where
  label : rule.label = rule'.label
  conditions : List.Forall₂ Condition.SaysAs rule.conditions rule'.conditions
  conclusions : List.Forall₂ (fun c c' => c.proposition.SaysAs c'.proposition)
    rule.conclusions rule'.conclusions

def words (rule : Rule Float) : List String :=
  let conditionWords :=
    match rule.conditions with
    | [] => []
    | first :: rest => first.words ++ rest.flatMap Condition.innerWords
  (rule.label.text ++ ":") :: (conditionWords ++ rule.conclusions.flatMap Conclusion.words)

theorem readsAs_words (h : rule.Bare) : ReadsAs rule.text rule.words := by
  obtain ⟨first, rest, hconditions, -⟩ := rule.wellFormed.exists_cons
  have hcond := h.conditions
  rw [hconditions, List.forall_mem_cons] at hcond
  have hlabel : ReadsAs (rule.label.text ++ ":") [rule.label.text ++ ":"] := by
    refine .word ?_
    rw [String.toList_append, List.forall_mem_append]
    exact ⟨Name.isPlain_of_bare h.label, List.all_eq_true.1 rfl⟩
  have hrest := ReadsAs.map fun c hc => Condition.readsAs_innerWords (hcond.2 c hc)
  have hconclusions := ReadsAs.map fun c hc => Conclusion.readsAs_words (h.conclusions c hc)
  have htext := ReadsAs.intercalate (.cons hlabel (.cons (Condition.readsAs_words hcond.1)
    (List.rel_append hrest hconclusions))) (List.cons_ne_nil _ _)
  rw [List.flatten_cons, List.flatten_cons, List.flatten_append, ← List.flatMap_def,
    ← List.flatMap_def, ← List.append_assoc first.words] at htext
  rw [text, words, hconditions]
  exact htext

/-- After the first condition of a rule stands another one, a conclusion or
nothing. -/
theorem closes_rest (rest : List (Condition Float)) (conclusions : List (Conclusion Float)) :
    Condition.Closes
      (rest.flatMap Condition.innerWords ++ conclusions.flatMap Conclusion.words) := by
  cases rest with
  | cons c rest =>
      rw [List.flatMap_cons, List.append_assoc]
      exact Condition.closes_innerWords c _
  | nil =>
      cases conclusions with
      | nil => exact Condition.closes_nil
      | cons c conclusions => exact Condition.closes_then _

theorem stops_conclusions (conclusions : List (Conclusion Float)) :
    Stops Condition.innerWords Condition.Bare (conclusions.flatMap Conclusion.words) := by
  intro c _ u heq
  cases conclusions with
  | nil => cases heq
  | cons conclusion conclusions =>
      have hkeyword := (List.cons.inj heq).1
      revert hkeyword
      cases c.connective <;> decide

theorem saysAs_of_words_eq (h : rule.Bare) (h' : rule'.Bare) (hwords : rule.words = rule'.words) :
    rule.SaysAs rule' := by
  obtain ⟨first, rest, hconditions, hopening⟩ := rule.wellFormed.exists_cons
  obtain ⟨first', rest', hconditions', hopening'⟩ := rule'.wellFormed.exists_cons
  have hcond := h.conditions
  have hcond' := h'.conditions
  rw [hconditions, List.forall_mem_cons] at hcond
  rw [hconditions', List.forall_mem_cons] at hcond'
  simp only [words, hconditions, hconditions', List.append_assoc, List.cons.injEq] at hwords
  obtain ⟨hlabel, hafter⟩ := hwords
  obtain ⟨⟨hweight, hpremises⟩, hrest⟩ :=
    Condition.words_append_inj hcond.1 hcond'.1 (closes_rest _ _) (closes_rest _ _) hafter
  obtain ⟨hinner, hend⟩ := flatMap_append_inj
    (fun _ _ _ _ => Condition.innerWords_append_inj) hcond.2 hcond'.2
    (stops_conclusions _) (stops_conclusions _) hrest
  rw [← List.append_nil (rule.conclusions.flatMap _),
    ← List.append_nil (rule'.conclusions.flatMap _)] at hend
  obtain ⟨hconclusions, -⟩ := flatMap_append_inj
    (fun _ _ _ _ _ _ => Conclusion.words_append_inj) h.conclusions h'.conclusions
    (stops_nil fun _ => List.cons_ne_nil _ _) (stops_nil fun _ => List.cons_ne_nil _ _) hend
  refine ⟨Label.text_injective ((String.append_left_inj ":").1 hlabel), ?_, hconclusions⟩
  rw [hconditions, hconditions']
  exact .cons ⟨hopening.trans hopening'.symm, hweight, hpremises⟩ hinner

/-- Rules with the same text have the same label, the same premises and conclusions
in the same order, and conditions of equal weight that attach alike, unless a name
has parentheses. -/
theorem text_determines_rule (rule rule' : Rule Float) (h : rule.Bare) (h' : rule'.Bare)
    (htext : rule.text = rule'.text) : rule.SaysAs rule' :=
  saysAs_of_words_eq h h' ((readsAs_words h).unique (htext ▸ readsAs_words h'))

def airing (room : String) (upper : Float) : Except (Fault Float) (Rule Float) := do
  let cold ← FuzzySet.named "cold" (← Shape.ofLeftEdge 0 15 0 1)
  let warm ← FuzzySet.named "warm" (← Shape.ofRightEdge 15 upper 0 1)
  let ajar ← FuzzySet.named "not" (← Shape.ofRightEdge 0 8 0 1)
  let room ← Variable.declare room 0 40 [cold, warm]
  let window ← Variable.declare "then" 0 9 [ajar]
  let first := (Condition.when (← room.is "warm")).and (← window.isNot "not")
  let second := (Condition.when (← room.isNot "cold")).weighted (← Degree.ofScalar 0.3)
  ofClauses room.subject [← first.build, (← second.build).attach .or]
    [← Conclusion.ofState window "not"]

def airingText : String :=
  "room: IF room IS warm AND then IS NOT not OR (room IS NOT cold WITH 0.3) THEN then IS not"

/-- Names that spell keywords are told from them, and of the states of the room
only the names are seen. -/
theorem text_determines_rule_of_airing : ∃ rule rule' : Rule Float,
    airing "Room" 30 = .ok rule ∧ airing " R OOM" 25 = .ok rule' ∧
      (rule.text = airingText ∧ rule'.text = airingText) ∧ rule.SaysAs rule' := by
  have hruns : ((airing "Room" 30).toOption.bind fun rule =>
      (airing " R OOM" 25).toOption.filter fun rule' => rule.Bare ∧ rule'.Bare ∧
        rule.text = airingText ∧ rule'.text = airingText).isSome = true := by decide +kernel
  obtain ⟨rule', hrun⟩ := Option.isSome_iff_exists.1 hruns
  obtain ⟨rule, hrule, hchecked⟩ := Option.bind_eq_some_iff.1 hrun
  obtain ⟨hrule', hchecks⟩ := Option.filter_eq_some_iff.1 hchecked
  obtain ⟨hbare, hbare', htext, htext'⟩ := of_decide_eq_true hchecks
  exact ⟨rule, rule', Fallible.toOption_eq_some.1 hrule, Fallible.toOption_eq_some.1 hrule',
    ⟨htext, htext'⟩, text_determines_rule rule rule' hbare hbare' (htext.trans htext'.symm)⟩

end Rule

end FuzzyInference
