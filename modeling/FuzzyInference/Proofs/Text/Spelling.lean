import FuzzyInference.Proofs.Store.Facts
import FuzzyInference.Scalar.Binary
import Mathlib.Logic.Relation

/-!
# Spellings of a name

White space can be put into a text anywhere, and each of its characters can be
replaced by its lower case.  Texts that come from each other in this way, and no
others, have the same folded text, so they name the same thing, and the text of a
name is one of its own spellings.
-/

namespace FuzzyInference

/-! ## Folding piece by piece -/

namespace Text

theorem fold_append (cs ds : List Char) : fold (cs ++ ds) = fold cs ++ fold ds := by
  rw [fold, fold, fold, List.filter_append, List.flatMap_append]

theorem fold_cons (c : Char) (cs : List Char) : fold (c :: cs) = fold [c] ++ fold cs :=
  fold_append [c] cs

theorem fold_blank {c : Char} (h : isBlank c = true) : fold [c] = [] := by
  rw [fold, List.filter_cons_of_neg (by simp [h]), List.filter_nil, List.flatMap_nil]

theorem fold_singleton {c : Char} (h : isBlank c = false) : fold [c] = lower c := by
  rw [fold, List.filter_cons_of_pos (by simp [h]), List.filter_nil, List.flatMap_singleton]

private theorem blank_codes_unmapped :
    ∀ code ∈ blankRanges.flatMap fun r => List.range' r.1 (r.2 - r.1 + 1),
      lowerCode code = code ∧ code ≠ dottedCapital.toNat := by
  decide +kernel

theorem lower_blank {c : Char} (h : isBlank c = true) : lower c = [c] := by
  have hmem : c.toNat ∈ blankRanges.flatMap fun r => List.range' r.1 (r.2 - r.1 + 1) := by
    obtain ⟨r, hr, hin⟩ := List.any_eq_true.1 h
    simp only [Bool.and_eq_true, decide_eq_true_eq] at hin
    exact List.mem_flatMap.2 ⟨r, hr, List.mem_range'_1.2 ⟨hin.1, by omega⟩⟩
  obtain ⟨hcode, hne⟩ := blank_codes_unmapped c.toNat hmem
  rw [lower, if_neg fun heq => hne (congrArg Char.toNat heq), hcode, Char.ofNat_toNat]

theorem fold_lower (c : Char) : fold (lower c) = fold [c] := by
  cases hblank : isBlank c with
  | true => rw [lower_blank hblank]
  | false =>
      rw [fold_singleton hblank]
      exact fold_eq_self fun d hd => isFolded_of_mem_lower hblank hd

/-! ## Respelling -/

/-- The second text is the first with white space put in at one place, or with
one character in lower case. -/
inductive Respelled : List Char → List Char → Prop
  | blank (before : List Char) {c : Char} (hc : isBlank c = true) (after : List Char) :
      Respelled (before ++ after) (before ++ c :: after)
  | lowerCase (before : List Char) (c : Char) (after : List Char) :
      Respelled (before ++ c :: after) (before ++ lower c ++ after)

def SpeltAlike : List Char → List Char → Prop := Relation.EqvGen Respelled

theorem Respelled.fold_eq {cs ds : List Char} (h : Respelled cs ds) : fold cs = fold ds := by
  cases h with
  | blank before hc after =>
      rw [fold_append, fold_append, fold_cons, fold_blank hc, List.nil_append]
  | lowerCase before c after =>
      rw [fold_append, fold_append, fold_append, fold_cons, fold_lower, List.append_assoc]

/-- What stands before the rest of a text is in folded form already. -/
private theorem speltAlike_append_fold (before cs : List Char) :
    SpeltAlike (before ++ cs) (before ++ fold cs) := by
  induction cs generalizing before with
  | nil => exact .refl _
  | cons c cs ih =>
      rw [fold_cons]
      cases hblank : isBlank c with
      | true =>
          rw [fold_blank hblank, List.nil_append]
          exact .trans _ _ _ (.symm _ _ (.rel _ _ (.blank before hblank cs))) (ih before)
      | false =>
          rw [fold_singleton hblank, ← List.append_assoc]
          exact .trans _ _ _ (.rel _ _ (.lowerCase before c cs)) (ih (before ++ lower c))

/-- Folding tells apart what is not spelt alike, and nothing else. -/
theorem fold_eq_iff {cs ds : List Char} : fold cs = fold ds ↔ SpeltAlike cs ds := by
  constructor
  · intro h
    have hds : SpeltAlike (fold cs) ds := h ▸ .symm _ _ (speltAlike_append_fold [] ds)
    exact .trans _ _ _ (speltAlike_append_fold [] cs) hds
  · intro h
    induction h with
    | rel _ _ hstep => exact hstep.fold_eq
    | refl _ => rfl
    | symm _ _ _ ih => exact ih.symm
    | trans _ _ _ _ _ ih ih' => exact ih.trans ih'

end Text

/-! ## Reading a name -/

namespace Name

theorem normalize_eq_iff {raw raw' : String} :
    normalize raw = normalize raw' ↔ Text.SpeltAlike raw.toList raw'.toList := by
  rw [normalize, normalize, String.ofList_inj, Text.fold_eq_iff]

theorem toList_normalize (raw : String) : (normalize raw).toList = Text.fold raw.toList := by
  rw [normalize, String.toList_ofList]

theorem normalize_eq_empty_iff {raw : String} :
    normalize raw = "" ↔ (normalize raw).length = 0 := by
  rw [String.length_eq_zero_iff]

/-- Reading a text as a name: what it gives for every text, said of the names
through their own texts. -/
structure Reads {β : Type} (read : String → Except NameFault β) (text : β → String) : Prop where
  exists_iff : ∀ raw, (∃ name, read raw = .ok name) ↔
    1 ≤ (normalize raw).length ∧ (normalize raw).length ≤ nameLimit
  text_eq : ∀ raw name, read raw = .ok name → text name = normalize raw
  empty_iff : ∀ raw, read raw = .error .empty ↔ (normalize raw).length = 0
  tooLong_iff : ∀ raw long, read raw = .error (.tooLong long) ↔
    long = normalize raw ∧ nameLimit < (normalize raw).length
  read_text : ∀ name, read (text name) = .ok name

theorem ofRaw_congr {raw raw' : String} (h : Text.SpeltAlike raw.toList raw'.toList) :
    ofRaw raw = ofRaw raw' := by
  simp only [ofRaw, normalize_eq_iff.2 h]

theorem reads_ofRaw : Reads ofRaw Name.text where
  exists_iff raw := by
    unfold ofRaw
    split_ifs with hempty hlong
    · simp [normalize_eq_empty_iff.1 hempty]
    · simp [Nat.not_le_of_lt hlong]
    · rw [normalize_eq_empty_iff] at hempty
      exact iff_of_true ⟨_, rfl⟩ ⟨Nat.one_le_iff_ne_zero.2 hempty, Nat.le_of_not_lt hlong⟩
  text_eq raw name h := by
    unfold ofRaw at h
    split_ifs at h with hempty hlong
    cases h
    rfl
  empty_iff raw := by
    rw [← normalize_eq_empty_iff]
    unfold ofRaw
    split_ifs with hempty hlong <;> simp [hempty]
  tooLong_iff raw long := by
    unfold ofRaw
    split_ifs with hempty hlong
    · simp [normalize_eq_empty_iff.1 hempty]
    · simp [hlong, eq_comm]
    · simp [hlong]
  read_text := ofRaw_text

/-- What is read as a name is read alike when the name is set apart for a use of
its own. -/
theorem Reads.wrap {β : Type} {wrap : Name → β} {text : β → String}
    (htext : ∀ name, text (wrap name) = name.text) (hwrap : Function.Surjective wrap)
    (hread : Reads ofRaw Name.text) : Reads (fun raw => wrap <$> ofRaw raw) text where
  exists_iff raw := by
    rw [← hread.exists_iff]
    cases ofRaw raw <;> simp
  text_eq raw name h := by
    cases hraw : ofRaw raw with
    | error fault => simp [hraw] at h
    | ok plain =>
        obtain rfl : wrap plain = name := by simpa [hraw] using h
        rw [htext, hread.text_eq raw plain hraw]
  empty_iff raw := by
    rw [← hread.empty_iff]
    cases ofRaw raw <;> simp
  tooLong_iff raw long := by
    rw [← hread.tooLong_iff]
    cases ofRaw raw <;> simp
  read_text name := by
    obtain ⟨plain, rfl⟩ := hwrap name
    rw [htext, hread.read_text]
    rfl

end Name

/-! ## A label finds its own entry -/

structure IndexedFacts.FindsByText {α : Type} [Scalar α] (s : IndexedFacts α) (label : Label) :
    Prop where
  contains : s.contains label.text = s.data.contains label
  add : ∀ value, Scalar.isFinite value = true → s.data.contains label = true →
    (add label.text value).run s = .error (.duplicateFact label) s
  update : ∀ value old, Scalar.isFinite value = true → s.data.get? label = some old →
    (update label.text value).run s = .ok () (s.withValue label old value)
  remove : ∀ old, s.data.get? label = some old →
    (remove? label.text).run.run s = (some old, s.without label)

theorem IndexedFacts.findsByText {α : Type} [Scalar α] (s : IndexedFacts α) (label : Label) :
    s.FindsByText label := by
  have hraw := label.ofRaw_text
  have hnew (value : α) (hfinite : Scalar.isFinite value = true) :
      Observation.named label.text value = .ok ⟨label, value⟩ := by
    rw [Observation.named_of_ok hraw, if_pos hfinite]
  exact {
    contains := by rw [IndexedFacts.contains, hraw]
    add := fun value hfinite => run_add_of_contains (hnew value hfinite)
    update := fun value old hfinite => run_update_of_some (hnew value hfinite)
    remove := fun old => run_remove?_of_some hraw }

/-! ## Labels and states -/

/-- What is read as a name is the text without its white space and in lower
case, where that has from 1 to 64 characters.  Reading that text again gives the
name again, texts that are spelt alike are read alike, and the facts find the
entry of a label under its text. -/
theorem names_read_as_folded :
    (∀ raw, (Name.normalize raw).toList =
      (raw.toList.filter fun c => !Text.isBlank c).flatMap Text.lower) ∧
    (∀ raw, Name.normalize (Name.normalize raw) = Name.normalize raw) ∧
    (∀ raw raw', Name.normalize raw = Name.normalize raw' ↔
      Text.SpeltAlike raw.toList raw'.toList) ∧
    Name.Reads Label.ofRaw (fun label => label.text) ∧
    Name.Reads State.ofRaw (fun state => state.text) ∧
    (∀ raw raw', Text.SpeltAlike raw.toList raw'.toList →
      Label.ofRaw raw = Label.ofRaw raw' ∧ State.ofRaw raw = State.ofRaw raw') ∧
    ∀ (s : IndexedFacts Float) (label : Label), s.FindsByText label := by
  have hlabels : Name.Reads Label.ofRaw (fun label => label.text) :=
    Name.reads_ofRaw.wrap (fun _ => rfl) fun label => ⟨label.toName, rfl⟩
  have hstates : Name.Reads State.ofRaw (fun state => state.text) :=
    Name.reads_ofRaw.wrap (fun _ => rfl) fun state => ⟨state.toName, rfl⟩
  refine ⟨Name.toList_normalize, Name.normalize_normalize, fun _ _ => Name.normalize_eq_iff,
    hlabels, hstates, ?_, IndexedFacts.findsByText⟩
  intro raw raw' h
  rw [Label.ofRaw, Label.ofRaw, State.ofRaw, State.ofRaw, Name.ofRaw_congr h]
  exact ⟨rfl, rfl⟩

/-- White space at the start and inside, two capitals, and one more whose lower
case is two characters. -/
theorem names_read_as_folded_of_izmirTemp :
    Text.SpeltAlike " \u0130zmir\tTemp".toList "i\u0307zmirtemp".toList ∧
    Label.ofRaw " \u0130zmir\tTemp" = Label.ofRaw "i\u0307zmirtemp" ∧
    ∃ label, Label.ofRaw " \u0130zmir\tTemp" = .ok label ∧ label.text = "i\u0307zmirtemp" := by
  have halike : Text.SpeltAlike " \u0130zmir\tTemp".toList "i\u0307zmirtemp".toList :=
    Name.normalize_eq_iff.1 (by decide +kernel)
  obtain ⟨-, -, -, hreads, -, hread, -⟩ := names_read_as_folded
  obtain ⟨label, hlabel⟩ := (hreads.exists_iff " \u0130zmir\tTemp").2 (by decide +kernel)
  refine ⟨halike, (hread _ _ halike).1, label, hlabel, ?_⟩
  rw [hreads.text_eq _ label hlabel]
  decide +kernel

end FuzzyInference
