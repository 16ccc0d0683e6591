import FuzzyInference.Proofs.Binary.Extremes
import FuzzyInference.Proofs.Curve.Peaks
import FuzzyInference.Proofs.Fallible
import FuzzyInference.Proofs.Store.Keyed
import FuzzyInference.Variable
import Mathlib.Data.List.Infix

/-!
# Declared variables

A variable can be declared if nothing that is asked of the declaration fails,
and else the first thing that fails is its fault.  Once it is declared, its states
are distinct, so each of them finds its set, and the first state of the greatest
degree describes a value best.
-/

namespace FuzzyInference

/-! ## What is asked of a declaration -/

structure Requirement (α : Type) where
  holds : Prop
  fault : Fault α

def Requirement.FirstFailing {α : Type} (requirements : List (Requirement α)) (fault : Fault α) :
    Prop :=
  ∃ before r after, requirements = before ++ r :: after ∧ (∀ q ∈ before, q.holds) ∧
    ¬ r.holds ∧ r.fault = fault

namespace Requirement

variable {α : Type} {r : Requirement α} {requirements : List (Requirement α)} {fault : Fault α}

theorem not_firstFailing_nil : ¬ FirstFailing ([] : List (Requirement α)) fault := by
  rintro ⟨before, r, after, hsplit, -⟩
  simp at hsplit

theorem firstFailing_cons : FirstFailing (r :: requirements) fault ↔
    ¬ r.holds ∧ r.fault = fault ∨ r.holds ∧ FirstFailing requirements fault := by
  constructor
  · rintro ⟨before, q, after, hsplit, hbefore, hq⟩
    cases before with
    | nil =>
        obtain ⟨rfl, rfl⟩ := List.cons.inj hsplit
        exact .inl hq
    | cons first before =>
        obtain ⟨rfl, hrest⟩ := List.cons.inj hsplit
        obtain ⟨hfirst, hbefore⟩ := List.forall_mem_cons.1 hbefore
        exact .inr ⟨hfirst, before, q, after, hrest, hbefore, hq⟩
  · rintro (hr | ⟨hr, before, q, after, hsplit, hbefore, hq⟩)
    · exact ⟨[], r, requirements, rfl, by simp, hr⟩
    · exact ⟨r :: before, q, after, congrArg (r :: ·) hsplit,
        List.forall_mem_cons.2 ⟨hr, hbefore⟩, hq⟩

theorem firstFailing_cons_of_holds (hr : r.holds) :
    FirstFailing (r :: requirements) fault ↔ FirstFailing requirements fault := by
  simp [firstFailing_cons, hr]

theorem firstFailing_cons_of_not_holds (hr : ¬ r.holds) :
    FirstFailing (r :: requirements) fault ↔ r.fault = fault := by
  simp [firstFailing_cons, hr]

/-- A computation that goes on if the requirement holds. -/
theorem dite_eq_error_iff {β : Type} {p : Prop} [Decidable p] {first : Fault α}
    {go : p → Except (Fault α) β}
    (hgo : ∀ hp, go hp = .error fault ↔ FirstFailing requirements fault) :
    (if hp : p then go hp else throw first) = .error fault ↔
      FirstFailing (⟨p, first⟩ :: requirements) fault := by
  by_cases hp : p
  · rw [dif_pos hp, hgo, firstFailing_cons_of_holds hp]
  · rw [dif_neg hp, firstFailing_cons_of_not_holds hp]
    exact ⟨Except.error.inj, congrArg Except.error⟩

theorem dite_not_eq_error_iff {β : Type} {p q : Prop} [Decidable q] {first : Fault α}
    {go : ¬ q → Except (Fault α) β} (hpq : p ↔ ¬ q)
    (hgo : ∀ hq, go hq = .error fault ↔ FirstFailing requirements fault) :
    (if hq : q then throw first else go hq) = .error fault ↔
      FirstFailing (⟨p, first⟩ :: requirements) fault := by
  by_cases hq : q
  · rw [dif_pos hq, firstFailing_cons_of_not_holds (mt hpq.1 (not_not.2 hq))]
    exact ⟨Except.error.inj, congrArg Except.error⟩
  · rw [dif_neg hq, hgo, firstFailing_cons_of_holds (hpq.2 hq)]

theorem forall_holds_iff :
    (∀ r ∈ requirements, r.holds) ↔ ∀ fault, ¬ FirstFailing requirements fault := by
  induction requirements with
  | nil => simp [not_firstFailing_nil]
  | cons r requirements ih =>
      rw [List.forall_mem_cons, ih]
      by_cases hr : r.holds
      · simp only [firstFailing_cons_of_holds hr, hr, true_and]
      · simp [firstFailing_cons_of_not_holds hr, hr]

end Requirement

namespace Variable

section Declaring

variable {α κ : Type} [Scalar α] [LinearOrder κ] {nan : α → Prop} {rank : α → κ}
  {subject : String} {label : Label} {lower upper : α} {sets : List (FuzzySet α)}
  {fault : Fault α}

def setRequirements (subject : Label) (lower upper : α) (earlier : List (FuzzySet α))
    (s : FuzzySet α) : List (Requirement α) :=
  [⟨lower ≤ s.lower ∧ s.upper ≤ upper, .setOutOfBounds subject s.state s.lower s.upper⟩,
    ⟨s.state ∉ earlier.map FuzzySet.state, .duplicateState subject s.state⟩]

/-- What is asked of a declaration in the order in which it is checked: its bounds
first, then one set after the other. -/
def requirements (subject : Label) (lower upper : α) (sets : List (FuzzySet α)) :
    List (Requirement α) :=
  ⟨Scalar.isFinite lower = true, .notFinite lower⟩ ::
    ⟨Scalar.isFinite upper = true, .notFinite upper⟩ ::
    ⟨lower ≤ upper, .reversedBounds lower upper⟩ :: ⟨sets ≠ [], .noSets⟩ ::
    (sets.inits.zip sets).flatMap fun p => setRequirements subject lower upper p.1 p.2

theorem declare_of_error {fault : NameFault} (hsubject : Label.ofRaw subject = .error fault)
    (lower upper : α) (sets : List (FuzzySet α)) :
    declare subject lower upper sets = .error (.badName fault) := by
  rw [declare, Label.named, hsubject]
  rfl

variable (h : Ranks nan rank)

include h

/-- The sets that follow others pass the check or are refused for the first thing
that fails of what is asked of them. -/
private theorem setFault?_eq_some_iff (hlower : ¬ nan lower) (hupper : ¬ nan upper)
    (earlier : List (FuzzySet α)) {declared : List State}
    (hdeclared : ∀ state, state ∈ declared ↔ state ∈ earlier.map FuzzySet.state) :
    setFault? label lower upper declared sets = some fault ↔
      Requirement.FirstFailing (((sets.inits.map (earlier ++ ·)).zip sets).flatMap
        fun p => setRequirements label lower upper p.1 p.2) fault := by
  induction sets generalizing declared earlier with
  | nil => simp [setFault?, Requirement.not_firstFailing_nil]
  | cons s rest ih =>
      have hwithin : lower ≤ s.lower ∧ s.upper ≤ upper ↔ ¬ (s.lower < lower ∨ upper < s.upper) := by
        have hs : ¬ nan s.lower := h.not_nan_of_mem s.shape.lower_mem
        have hs' : ¬ nan s.upper := h.not_nan_of_mem s.shape.upper_mem
        rw [not_or, h.le_iff hlower hs, h.le_iff hs' hupper, h.lt_iff hs hlower,
          h.lt_iff hupper hs', not_lt, not_lt]
      have hinits : (s :: rest).inits.map (earlier ++ ·) =
          earlier :: rest.inits.map (earlier ++ [s] ++ ·) := by
        simp [Function.comp_def]
      have hlater (state : State) :
          state ∈ s.state :: declared ↔ state ∈ (earlier ++ [s]).map FuzzySet.state := by
        rw [List.mem_cons, hdeclared, List.map_append, List.mem_append, List.map_singleton,
          List.mem_singleton, or_comm]
      rw [setFault?_cons, hinits, List.zip_cons_cons, List.flatMap_cons, setRequirements,
        List.cons_append, List.singleton_append, Requirement.firstFailing_cons,
        Requirement.firstFailing_cons, ← ih _ hlater]
      by_cases hleaves : s.lower < lower ∨ upper < s.upper
      · simp [hleaves, hwithin]
      · by_cases hfresh : s.state ∈ declared
        · simp [hleaves, hwithin, hfresh, ← hdeclared]
        · simp [hleaves, hwithin, hfresh, ← hdeclared]

theorem declare_eq_error_iff (hsubject : Label.ofRaw subject = .ok label) :
    declare subject lower upper sets = .error fault ↔
      Requirement.FirstFailing (requirements label lower upper sets) fault := by
  have hnamed : (Label.named subject : Except (Fault α) Label) = .ok label := by
    rw [Label.named, hsubject]
    rfl
  rw [declare, hnamed]
  refine Requirement.dite_eq_error_iff fun hlower => ?_
  refine Requirement.dite_eq_error_iff fun hupper => ?_
  have hlow := h.not_nan_of_isFinite hlower
  have hupp := h.not_nan_of_isFinite hupper
  have hrange : lower ≤ upper ↔ ¬ upper < lower := by
    rw [h.le_iff hlow hupp, h.lt_iff hupp hlow, not_lt]
  refine Requirement.dite_not_eq_error_iff hrange fun _ => ?_
  refine Requirement.dite_not_eq_error_iff Iff.rfl fun _ => ?_
  have hsets : setFault? label lower upper [] sets = some fault ↔
      Requirement.FirstFailing ((sets.inits.zip sets).flatMap
        fun p => setRequirements label lower upper p.1 p.2) fault := by
    simpa using setFault?_eq_some_iff h hlow hupp [] fun _ => Iff.rfl
  rw [← hsets]
  split
  · next found hfound =>
      rw [hfound, Option.some_inj]
      exact ⟨Except.error.inj, congrArg Except.error⟩
  · next hnone =>
      refine iff_of_false (fun hok => ?_) fun hsome => ?_
      · cases hok
      · cases hnone.symm.trans hsome

theorem exists_declare_iff (hsubject : Label.ofRaw subject = .ok label) :
    (∃ v, declare subject lower upper sets = .ok v) ↔
      ∀ r ∈ requirements label lower upper sets, r.holds := by
  rw [Requirement.forall_holds_iff]
  simp only [← declare_eq_error_iff h hsubject]
  cases declare subject lower upper sets with
  | error fault => exact iff_of_false (fun hok => nomatch hok.choose_spec) fun hno => hno fault rfl
  | ok v => exact iff_of_true ⟨v, rfl⟩ fun fault hfault => nomatch hfault

end Declaring

/-! ## The requirements together -/

section Together

variable {β γ : Type} {l : List β}

private theorem mem_zip_inits {p : List β × β} :
    p ∈ l.inits.zip l ↔ ∃ after, l = p.1 ++ p.2 :: after := by
  obtain ⟨before, b⟩ := p
  induction l generalizing before with
  | nil => simp
  | cons c l ih =>
      rw [List.inits_cons, List.zip_cons_cons, List.zip_map_left, List.mem_cons, List.mem_map]
      cases before with
      | nil => simp [eq_comm]
      | cons d before =>
          constructor
          · rintro (heq | ⟨⟨before', b'⟩, hmem, heq⟩)
            · simp at heq
            · obtain ⟨⟨rfl, rfl⟩, rfl⟩ : (c = d ∧ before' = before) ∧ b' = b := by simpa using heq
              obtain ⟨after, hl⟩ := (ih before').1 hmem
              exact ⟨after, congrArg (c :: ·) hl⟩
          · rintro ⟨after, hl⟩
            obtain ⟨rfl, hl⟩ := List.cons.inj hl
            exact .inr ⟨(before, b), (ih before).2 ⟨after, hl⟩, rfl⟩

/-- In a list without repetitions no element repeats one before it. -/
private theorem nodup_map_iff_split {f : β → γ} :
    (l.map f).Nodup ↔ ∀ before b after, l = before ++ b :: after → f b ∉ before.map f := by
  constructor
  · rintro hnodup before b after rfl hmem
    rw [List.map_append, List.map_cons] at hnodup
    exact List.disjoint_of_nodup_append hnodup hmem List.mem_cons_self
  · intro hsplit
    induction l with
    | nil => exact List.nodup_nil
    | cons a l ih =>
        refine List.nodup_cons.2 ⟨fun hmem => ?_, ih fun before b after hl => ?_⟩
        · obtain ⟨b, hb, heq⟩ := List.mem_map.1 hmem
          obtain ⟨before, after, rfl⟩ := List.append_of_mem hb
          exact hsplit (a :: before) b after rfl (heq ▸ List.mem_cons_self)
        · have hlater := hsplit (a :: before) b after (congrArg (a :: ·) hl)
          exact fun hmem => hlater (List.mem_cons_of_mem _ hmem)

end Together

theorem forall_requirements_iff {α : Type} [Scalar α] {label : Label} {lower upper : α}
    {sets : List (FuzzySet α)} :
    (∀ r ∈ requirements label lower upper sets, r.holds) ↔
      Scalar.isFinite lower = true ∧ Scalar.isFinite upper = true ∧ lower ≤ upper ∧ sets ≠ [] ∧
        (∀ s ∈ sets, lower ≤ s.lower ∧ s.upper ≤ upper) ∧
        (sets.map FuzzySet.state).Nodup := by
  have hsets : (∀ p ∈ sets.inits.zip sets, (lower ≤ p.2.lower ∧ p.2.upper ≤ upper) ∧
      p.2.state ∉ p.1.map FuzzySet.state) ↔
      (∀ s ∈ sets, lower ≤ s.lower ∧ s.upper ≤ upper) ∧ (sets.map FuzzySet.state).Nodup := by
    rw [nodup_map_iff_split]
    constructor
    · intro hall
      refine ⟨fun s hs => ?_, fun before s after hsplit => ?_⟩
      · obtain ⟨before, after, hsplit⟩ := List.append_of_mem hs
        exact (hall (before, s) (mem_zip_inits.2 ⟨after, hsplit⟩)).1
      · exact (hall (before, s) (mem_zip_inits.2 ⟨after, hsplit⟩)).2
    · rintro ⟨hwithin, hfresh⟩ ⟨before, s⟩ hmem
      obtain ⟨after, hsplit⟩ := mem_zip_inits.1 hmem
      exact ⟨hwithin s (by simp [hsplit]), hfresh before s after hsplit⟩
  rw [← hsets]
  simp only [requirements, List.forall_mem_cons, List.forall_mem_flatMap, setRequirements,
    List.not_mem_nil, IsEmpty.forall_iff, implies_true, and_true]

/-! ## Asking a declared variable -/

section Asking

variable {α : Type} [Scalar α] {v : Variable α} {s : FuzzySet α}

theorem membership_of_mem (hs : s ∈ v.sets) (x : α) :
    v.membership s.state x = .ok (s.membership x) := by
  rw [membership, get_of_mem hs]
  rfl

theorem map_fst_fuzzify (v : Variable α) (x : α) : (v.fuzzify x).map Prod.fst = v.states := by
  rw [fuzzify, states, List.map_map]
  rfl

end Asking

/-! ## The first of the highest -/

section Highest

variable {β κ : Type} [LinearOrder κ]

structure IsFirstHighest (rank : β → κ) (l : List β) (b : β) : Prop where
  le : ∀ c ∈ l, rank c ≤ rank b
  split : ∃ before after, l = before ++ b :: after ∧ ∀ c ∈ before, rank c < rank b

/-- Keeping the later of two elements only if it ranks higher leads to the first
of those that rank highest. -/
theorem isFirstHighest_foldl (rank : β → κ) (first : β) (rest : List β) :
    IsFirstHighest rank (first :: rest)
      (rest.foldl (fun best b => if rank best < rank b then b else best) first) := by
  induction rest generalizing first with
  | nil => exact ⟨by simp, [], [], rfl, by simp⟩
  | cons second rest ih =>
      rw [List.foldl_cons]
      by_cases hlt : rank first < rank second
      · rw [if_pos hlt]
        obtain ⟨hle, before, after, hsplit, hbefore⟩ := ih second
        have hfirst := hlt.trans_le (hle second List.mem_cons_self)
        exact ⟨List.forall_mem_cons.2 ⟨hfirst.le, hle⟩, first :: before, after,
          congrArg (first :: ·) hsplit, List.forall_mem_cons.2 ⟨hfirst, hbefore⟩⟩
      · rw [if_neg hlt]
        have hsecond := not_lt.1 hlt
        obtain ⟨hle, before, after, hsplit, hbefore⟩ := ih first
        generalize rest.foldl (fun best b => if rank best < rank b then b else best) first = best
          at hle hsplit hbefore ⊢
        obtain ⟨hfirst, hrest⟩ := List.forall_mem_cons.1 hle
        refine ⟨List.forall_mem_cons.2 ⟨hfirst,
          List.forall_mem_cons.2 ⟨hsecond.trans hfirst, hrest⟩⟩, ?_⟩
        -- the second element goes in behind the first, unless that is the best itself
        cases before with
        | nil =>
            obtain ⟨rfl, rfl⟩ := List.cons.inj hsplit
            exact ⟨[], second :: rest, rfl, by simp⟩
        | cons head before =>
            obtain ⟨rfl, hlater⟩ := List.cons.inj hsplit
            obtain ⟨hhead, hbefore⟩ := List.forall_mem_cons.1 hbefore
            exact ⟨first :: second :: before, after,
              congrArg (fun l => first :: second :: l) hlater, List.forall_mem_cons.2
                ⟨hhead, List.forall_mem_cons.2 ⟨hsecond.trans_lt hhead, hbefore⟩⟩⟩

end Highest

theorem dominantState_spec {α κ : Type} [Scalar α] [LinearOrder κ] {nan : α → Prop} {rank : α → κ}
    (h : Ranks nan rank) (v : Variable α) (x : α) :
    ∃ before degree after, v.fuzzify x = before ++ (v.dominantState x, degree) :: after ∧
      (∀ e ∈ v.fuzzify x, ¬ degree < e.2) ∧
      ∀ e ∈ before, ∃ e' ∈ v.fuzzify x, e.2 < e'.2 := by
  have hbetter : (fun best s : FuzzySet α =>
      if best.membership x < s.membership x then s else best) = fun best s =>
      if rank (best.membership x).value < rank (s.membership x).value then s else best := by
    funext best s
    exact ite_congr (propext h.degree_lt_iff) (fun _ => rfl) fun _ => rfl
  have hbest := isFirstHighest_foldl (fun s : FuzzySet α => rank (s.membership x).value)
    (v.sets.head v.ne_nil) v.sets.tail
  rw [List.cons_head_tail, ← hbetter] at hbest
  obtain ⟨hle, before, after, hsplit, hbefore⟩ := hbest
  generalize hfold : v.sets.tail.foldl _ _ = best at hle hsplit hbefore
  have hstate : v.dominantState x = best.state := congrArg FuzzySet.state hfold
  have hmem : best ∈ v.sets := by simp [hsplit]
  refine ⟨before.map fun s => (s.state, s.membership x), best.membership x,
    after.map fun s => (s.state, s.membership x), ?_, ?_, ?_⟩
  · rw [fuzzify, hstate, hsplit, List.map_append, List.map_cons]
  · refine List.forall_mem_map.2 fun s hs hlt => ?_
    exact (hle s hs).not_gt (h.degree_lt_iff.1 hlt)
  · refine List.forall_mem_map.2 fun s hs => ?_
    exact ⟨_, List.mem_map_of_mem hmem, h.degree_lt_iff.2 (hbefore s hs)⟩

/-- A variable can be declared exactly if its subject is a label and everything
holds that is asked of its bounds and sets, and is then made of just these; else
the fault is that of the first thing that fails.  Once it is declared, each state
finds the one set declared with it and has the degree of that, and the state that
describes a value best is the first whose degree no other exceeds. -/
theorem declare_checks_in_order (subject : String) (lower upper : Float)
    (sets : List (FuzzySet Float)) :
    ((∃ v, declare subject lower upper sets = .ok v) ↔
      (∃ label, Label.ofRaw subject = .ok label) ∧
        Scalar.isFinite lower = true ∧ Scalar.isFinite upper = true ∧ lower ≤ upper ∧ sets ≠ [] ∧
        (∀ s ∈ sets, lower ≤ s.lower ∧ s.upper ≤ upper) ∧
        (sets.map FuzzySet.state).Nodup) ∧
    (∀ fault, Label.ofRaw subject = .error fault →
      declare subject lower upper sets = .error (.badName fault)) ∧
    (∀ label, Label.ofRaw subject = .ok label → ∀ fault,
      declare subject lower upper sets = .error fault ↔
        Requirement.FirstFailing (requirements label lower upper sets) fault) ∧
    ∀ v, declare subject lower upper sets = .ok v →
      (Label.ofRaw subject = .ok v.subject ∧ v.lower = lower ∧ v.upper = upper ∧ v.sets = sets) ∧
      (∀ s ∈ sets, v.get s.state = .ok s ∧ ∀ t ∈ sets, t.state = s.state → t = s) ∧
      ∀ x, (v.fuzzify x).map Prod.fst = sets.map FuzzySet.state ∧
        (∀ e ∈ v.fuzzify x, v.membership e.1 x = .ok e.2) ∧
        ∃ before degree after, v.fuzzify x = before ++ (v.dominantState x, degree) :: after ∧
          (∀ e ∈ v.fuzzify x, ¬ degree < e.2) ∧
          ∀ e ∈ before, ∃ e' ∈ v.fuzzify x, e.2 < e'.2 := by
  refine ⟨?_, fun _ h => declare_of_error h lower upper sets,
    fun _ h _ => declare_eq_error_iff Binary.ranks h, fun v hv => ?_⟩
  · cases hsubject : Label.ofRaw subject with
    | error fault => simp [declare_of_error hsubject]
    | ok label =>
        rw [exists_declare_iff Binary.ranks hsubject, forall_requirements_iff]
        exact (and_iff_right ⟨label, rfl⟩).symm
  · obtain ⟨hsubject, hlower, hupper, rfl⟩ := parts_of_declare hv
    refine ⟨⟨hsubject, hlower, hupper, rfl⟩, fun s hs => ?_, fun x => ⟨?_, ?_, ?_⟩⟩
    · exact ⟨get_of_mem hs, fun t ht => eq_of_state_eq hs ht⟩
    · exact v.map_fst_fuzzify x
    · exact List.forall_mem_map.2 fun s hs => membership_of_mem hs x
    · exact dominantState_spec Binary.ranks v x

def roomSets : Except (Fault Float) (List (FuzzySet Float)) := do
  return [← FuzzySet.named "cold" (← Shape.ofLeftEdge 10 25 0 1),
    ← FuzzySet.named "hot" (← Shape.ofRightEdge 15 30 0 1)]

theorem declare_checks_in_order_of_roomSets : ∃ sets v, roomSets = .ok sets ∧
    declare "Room" 0 40 sets = .ok v ∧ (∀ s ∈ sets, v.get s.state = .ok s) ∧
    declare " " 0 40 sets = .error (.badName .empty) ∧
    ∃ fault, declare "Room" 0 25 sets = .error fault ∧
      Requirement.FirstFailing (requirements v.subject 0 25 sets) fault := by
  have hruns : (roomSets >>= declare "Room" 0 40).toOption.isSome = true := by decide +kernel
  have hfails : (roomSets >>= declare "Room" 0 25).toOption.isSome = false := by decide +kernel
  obtain ⟨v, hrun⟩ := Option.isSome_iff_exists.1 hruns
  obtain ⟨sets, hsets, hv⟩ := Fallible.bind_eq_ok.1 (Fallible.toOption_eq_some.1 hrun)
  obtain ⟨-, -, -, hdeclared⟩ := declare_checks_in_order "Room" 0 40 sets
  obtain ⟨⟨hsubject, -⟩, hget, -⟩ := hdeclared v hv
  obtain ⟨-, hname, -⟩ := declare_checks_in_order " " 0 40 sets
  refine ⟨sets, v, hsets, hv, fun s hs => (hget s hs).1, hname .empty (by decide +kernel), ?_⟩
  rw [hsets] at hfails
  change (declare "Room" 0 25 sets).toOption.isSome = false at hfails
  cases hnarrow : declare "Room" 0 25 sets with
  | ok w =>
      rw [hnarrow] at hfails
      cases hfails
  | error fault =>
      obtain ⟨-, -, hfirst, -⟩ := declare_checks_in_order "Room" 0 25 sets
      exact ⟨fault, rfl, (hfirst v.subject hsubject fault).1 hnarrow⟩

end Variable

end FuzzyInference
