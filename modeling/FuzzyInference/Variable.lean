import FuzzyInference.FuzzySet

/-!
# Linguistic variables

A named quantity whose range is covered by fuzzy sets, each of a state of its
own.  The sets keep the order in which they are declared.
-/

namespace FuzzyInference

structure Variable (α : Type) [Scalar α] where
  subject : Label
  lower : α
  upper : α
  sets : List (FuzzySet α)
  lower_finite : Scalar.isFinite lower = true
  upper_finite : Scalar.isFinite upper = true
  ordered : ¬ upper < lower
  ne_nil : sets ≠ []
  within : ∀ s ∈ sets, ¬ s.lower < lower ∧ ¬ upper < s.upper
  distinct : (sets.map FuzzySet.state).Nodup

namespace Variable

variable {α : Type} [Scalar α]

private def leaves (lower upper : α) (s : FuzzySet α) : Bool := s.lower < lower || upper < s.upper

/-- What is wrong with the first set that cannot be declared after the ones
before it: it leaves the bounds, or one of those has its state. -/
def setFault? (subject : Label) (lower upper : α) (declared : List State) :
    List (FuzzySet α) → Option (Fault α)
  | [] => none
  | s :: rest =>
      if leaves lower upper s then some (.setOutOfBounds subject s.state s.lower s.upper)
      else if s.state ∈ declared then some (.duplicateState subject s.state)
      else setFault? subject lower upper (s.state :: declared) rest

theorem setFault?_cons (subject : Label) (lower upper : α) (declared : List State)
    (s : FuzzySet α) (rest : List (FuzzySet α)) :
    setFault? subject lower upper declared (s :: rest) =
      if s.lower < lower ∨ upper < s.upper then
        some (.setOutOfBounds subject s.state s.lower s.upper)
      else if s.state ∈ declared then some (.duplicateState subject s.state)
      else setFault? subject lower upper (s.state :: declared) rest := by
  simp only [setFault?, leaves, Bool.or_eq_true, decide_eq_true_eq]

private theorem declarable_of_setFault? {subject : Label} {lower upper : α}
    {declared : List State} {sets : List (FuzzySet α)}
    (h : setFault? subject lower upper declared sets = none) :
    (∀ s ∈ sets, ¬ s.lower < lower ∧ ¬ upper < s.upper) ∧
      (sets.map FuzzySet.state).Nodup ∧ ∀ s ∈ sets, s.state ∉ declared := by
  induction sets generalizing declared with
  | nil => simp
  | cons s rest ih =>
      unfold setFault? at h
      split at h
      · contradiction
      · next hwithin =>
          split at h
          · contradiction
          · next hfresh =>
              obtain ⟨hrest, hnodup, hapart⟩ := ih h
              simp only [leaves, Bool.or_eq_true, decide_eq_true_eq, not_or] at hwithin
              refine ⟨?_, ?_, ?_⟩
              · exact List.forall_mem_cons.2 ⟨hwithin, hrest⟩
              · refine List.nodup_cons.2 ⟨?_, hnodup⟩
                intro hmem
                obtain ⟨t, ht, heq⟩ := List.mem_map.1 hmem
                exact hapart t ht (heq ▸ List.mem_cons_self)
              · refine List.forall_mem_cons.2 ⟨hfresh, fun t ht hmem => ?_⟩
                exact hapart t ht (List.mem_cons_of_mem _ hmem)

def declare (subject : String) (lower upper : α) (sets : List (FuzzySet α)) :
    Except (Fault α) (Variable α) := do
  let subject ← Label.named subject
  if hlower : Scalar.isFinite lower = true then
    if hupper : Scalar.isFinite upper = true then
      if hrange : upper < lower then throw (.reversedBounds lower upper)
      else if hne : sets = [] then throw .noSets
      else
        match h : setFault? subject lower upper [] sets with
        | some fault => throw fault
        | none =>
            return {
              subject, lower, upper, sets
              lower_finite := hlower
              upper_finite := hupper
              ordered := hrange
              ne_nil := hne
              within := (declarable_of_setFault? h).1
              distinct := (declarable_of_setFault? h).2.1 }
    else throw (.notFinite upper)
  else throw (.notFinite lower)

theorem parts_of_declare {subject : String} {lower upper : α} {sets : List (FuzzySet α)}
    {v : Variable α} (h : declare subject lower upper sets = .ok v) :
    Label.ofRaw subject = .ok v.subject ∧ v.lower = lower ∧ v.upper = upper ∧ v.sets = sets := by
  rw [declare, Label.named] at h
  cases hsubject : Label.ofRaw subject with
  | error fault =>
      rw [hsubject] at h
      cases h
  | ok label =>
      rw [hsubject] at h
      change (if hlower : _ then _ else _) = _ at h
      split at h
      · split at h
        · split at h
          · cases h
          · split at h
            · cases h
            · split at h
              · cases h
              · cases h
                exact ⟨rfl, rfl, rfl, rfl⟩
        · cases h
      · cases h

def states (v : Variable α) : List State := v.sets.map FuzzySet.state

def contains (v : Variable α) (state : State) : Bool := state ∈ v.states

/-- The set of a state, with the evidence that it is declared. -/
def declared (v : Variable α) (state : State) :
    Except (Fault α) { s : FuzzySet α // s ∈ v.sets } :=
  match v.sets.attach.find? fun s => s.1.state = state with
  | some s => .ok s
  | none => .error (.unknownState v.subject state)

def get (v : Variable α) (state : State) : Except (Fault α) (FuzzySet α) :=
  (v.declared state).map Subtype.val

theorem eq_of_state_eq {v : Variable α} {s t : FuzzySet α} (hs : s ∈ v.sets) (ht : t ∈ v.sets)
    (hstate : t.state = s.state) : t = s := by
  have hapart := List.pairwise_map.1 v.distinct
  have hsame := List.Pairwise.forall_of_forall_of_flip (R := fun s t => s.state = t.state → s = t)
    (fun _ _ _ => rfl) (hapart.imp fun hne heq => absurd heq hne)
    (hapart.imp fun hne heq => absurd heq.symm hne)
  exact hsame ht hs hstate

theorem get_of_mem {v : Variable α} {s : FuzzySet α} (hs : s ∈ v.sets) :
    v.get s.state = .ok s := by
  cases hfind : v.sets.attach.find? fun t => t.1.state = s.state with
  | none =>
      have hmissing := List.find?_eq_none.1 hfind ⟨s, hs⟩ (List.mem_attach _ _)
      simp at hmissing
  | some t =>
      have hstate : t.1.state = s.state := by simpa using List.find?_some hfind
      rw [get, declared, hfind]
      exact congrArg Except.ok (eq_of_state_eq hs t.2 hstate)

def membership (v : Variable α) (state : State) (x : α) : Except (Fault α) (Degree α) :=
  (v.get state).map fun s => s.membership x

def fuzzify (v : Variable α) (x : α) : List (State × Degree α) :=
  v.sets.map fun s => (s.state, s.membership x)

/-- The state with the greatest degree at `x`, the first of several. -/
def dominantState (v : Variable α) (x : α) : State :=
  let better (best s : FuzzySet α) := if best.membership x < s.membership x then s else best
  (v.sets.tail.foldl better (v.sets.head v.ne_nil)).state

end Variable

end FuzzyInference
