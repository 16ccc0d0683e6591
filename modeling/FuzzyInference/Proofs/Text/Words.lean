import Mathlib.Data.List.Forall2

/-!
# Texts as words

A text whose words stand one space apart is read as those words, with parentheses
as words of their own, although they stand next to what they enclose.  No text is
read as two different sequences of words.  Parts of a sequence of words are told
apart one after another.
-/

namespace FuzzyInference.Text

def spread : Char → List Char
  | '(' => ['(', ' ']
  | ')' => [' ', ')']
  | c => [c]

def trail (words : List String) : List Char := words.flatMap fun word => ' ' :: word.toList

/-- The text consists of the words, one space apart but for parentheses. -/
structure ReadsAs (text : String) (words : List String) : Prop where
  flatMap_spread : (' ' :: text.toList).flatMap spread = trail words
  unspaced : ∀ word ∈ words, ' ' ∉ word.toList

def isPlain (c : Char) : Bool := c != ' ' && c != '(' && c != ')'

/-! ## The words of a text -/

theorem isPlain_iff {c : Char} : isPlain c = true ↔ c ≠ ' ' ∧ c ≠ '(' ∧ c ≠ ')' := by
  simp [isPlain, and_assoc]

theorem spread_of_isPlain {c : Char} (h : isPlain c = true) : spread c = [c] := by
  obtain ⟨-, hopen, hclose⟩ := isPlain_iff.1 h
  unfold spread
  split
  · contradiction
  · contradiction
  · rfl

theorem trail_append (ws vs : List String) : trail (ws ++ vs) = trail ws ++ trail vs :=
  List.flatMap_append

namespace ReadsAs

variable {a b : String} {ws vs : List String}

theorem word (h : ∀ c ∈ a.toList, isPlain c = true) : ReadsAs a [a] := by
  have hspread : a.toList.flatMap spread = a.toList := by
    rw [List.flatMap_congr fun c hc => spread_of_isPlain (h c hc), List.flatMap_singleton']
  refine ⟨?_, List.forall_mem_singleton.2 fun hspace => (isPlain_iff.1 (h ' ' hspace)).1 rfl⟩
  rw [List.flatMap_cons, hspread, trail, List.flatMap_singleton]
  rfl

theorem append (ha : ReadsAs a ws) (hb : ReadsAs b vs) : ReadsAs (a ++ " " ++ b) (ws ++ vs) := by
  have hsplit : ' ' :: (a ++ " " ++ b).toList = ' ' :: a.toList ++ ' ' :: b.toList := by
    rw [String.toList_append, String.toList_append, List.append_assoc]
    rfl
  refine ⟨?_, List.forall_mem_append.2 ⟨ha.unspaced, hb.unspaced⟩⟩
  rw [hsplit, List.flatMap_append, ha.flatMap_spread, hb.flatMap_spread, trail_append]

theorem parenthesize (ha : ReadsAs a ws) : ReadsAs ("(" ++ a ++ ")") ("(" :: ws ++ [")"]) := by
  have hsplit : ' ' :: ("(" ++ a ++ ")").toList = ' ' :: '(' :: (a.toList ++ [')']) := by
    rw [String.toList_append, String.toList_append]
    rfl
  have hinner : ' ' :: a.toList.flatMap spread = trail ws := ha.flatMap_spread
  constructor
  · rw [hsplit, List.flatMap_cons, List.flatMap_cons, List.flatMap_append, List.cons_append]
    change ' ' :: '(' :: (' ' :: a.toList.flatMap spread ++ [' ', ')']) = ' ' :: '(' :: trail _
    rw [hinner, trail_append]
    rfl
  · rw [List.cons_append, List.forall_mem_cons, List.forall_mem_append, List.forall_mem_singleton]
    exact ⟨by decide, ha.unspaced, by decide⟩

theorem intercalate {texts : List String} {words : List (List String)}
    (h : List.Forall₂ ReadsAs texts words) (hne : texts ≠ []) :
    ReadsAs (" ".intercalate texts) words.flatten := by
  induction h with
  | nil => exact absurd rfl hne
  | @cons text ws texts words htext hrest ih =>
      rw [List.flatten_cons]
      by_cases hlast : texts = []
      · subst hlast
        cases hrest
        rwa [String.intercalate_singleton, List.flatten_nil, List.append_nil]
      · rw [String.intercalate_cons_of_ne_nil hlast]
        exact htext.append (ih hlast)

theorem map {β : Type} {f : β → String} {g : β → List String} {l : List β}
    (h : ∀ b ∈ l, ReadsAs (f b) (g b)) : List.Forall₂ ReadsAs (l.map f) (l.map g) :=
  List.forall₂_map_left_iff.2 (List.forall₂_map_right_iff.2 (List.forall₂_same.2 h))

end ReadsAs

private theorem splitOn_trail {w : List Char} (hw : ' ' ∉ w) {ws : List String}
    (hws : ∀ v ∈ ws, ' ' ∉ v.toList) : (w ++ trail ws).splitOn ' ' = w :: ws.map String.toList := by
  have hsingle {v : List Char} (hv : ' ' ∉ v) : v.splitOnP (· == ' ') = [v] :=
    List.splitOnP_eq_singleton fun c hc => beq_eq_false_iff_ne.2 (ne_of_mem_of_not_mem hc hv)
  induction ws generalizing w with
  | nil =>
      rw [List.splitOn, trail, List.flatMap_nil, List.append_nil, hsingle hw]
      rfl
  | cons v ws ih =>
      rw [List.forall_mem_cons] at hws
      have hrest := ih hws.1 hws.2
      rw [List.splitOn] at hrest ⊢
      rw [trail, List.flatMap_cons, ← trail, List.cons_append,
        List.splitOnP_append_cons (p := (· == ' ')) _ _ (beq_self_eq_true ' '), hsingle hw, hrest]
      rfl

/-- No text is read in two ways. -/
theorem ReadsAs.unique {a : String} {ws vs : List String} (h : ReadsAs a ws)
    (h' : ReadsAs a vs) : ws = vs := by
  have hsplit := congrArg (List.splitOn ' ') (h.flatMap_spread.symm.trans h'.flatMap_spread)
  rw [← List.nil_append (trail ws), ← List.nil_append (trail vs),
    splitOn_trail List.not_mem_nil h.unspaced, splitOn_trail List.not_mem_nil h'.unspaced] at hsplit
  exact List.map_injective_iff.2 (fun _ _ => String.toList_injective) (List.cons.inj hsplit).2

/-! ## The parts of a sequence of words -/

section Parts

variable {β γ : Type} {f : β → List γ} {P : β → Prop} {R : β → β → Prop} {s s' : List γ}

/-- What follows a sequence of elements is not taken for one more of them. -/
def Stops (f : β → List γ) (P : β → Prop) (s : List γ) : Prop := ∀ b, P b → ∀ u, s ≠ f b ++ u

theorem stops_nil (hf : ∀ b, f b ≠ []) : Stops f P [] :=
  fun b _ _ h => hf b (List.append_eq_nil_iff.1 h.symm).1

/-- Elements that are told apart with anything after them are told apart one after
the other. -/
theorem flatMap_append_inj
    (hf : ∀ b b' s s', P b → P b' → f b ++ s = f b' ++ s' → R b b' ∧ s = s')
    {l l' : List β} (hl : ∀ b ∈ l, P b) (hl' : ∀ b ∈ l', P b) (hs : Stops f P s)
    (hs' : Stops f P s') (h : l.flatMap f ++ s = l'.flatMap f ++ s') :
    List.Forall₂ R l l' ∧ s = s' := by
  induction l generalizing l' with
  | nil =>
      cases l' with
      | nil => exact ⟨.nil, h⟩
      | cons b' l' =>
          rw [List.flatMap_cons, List.append_assoc] at h
          exact absurd h (hs b' (hl' b' List.mem_cons_self) _)
  | cons b l ih =>
      rw [List.forall_mem_cons] at hl
      cases l' with
      | nil =>
          rw [List.flatMap_cons, List.append_assoc] at h
          exact absurd h.symm (hs' b hl.1 _)
      | cons b' l' =>
          rw [List.forall_mem_cons] at hl'
          rw [List.flatMap_cons, List.flatMap_cons, List.append_assoc, List.append_assoc] at h
          obtain ⟨hb, hrest⟩ := hf b b' _ _ hl.1 hl'.1 h
          obtain ⟨hl, hs⟩ := ih hl.2 hl'.2 hrest
          exact ⟨.cons hb hl, hs⟩

end Parts

end FuzzyInference.Text
