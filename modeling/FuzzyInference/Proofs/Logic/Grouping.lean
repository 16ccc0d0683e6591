import FuzzyInference.Proofs.Fallible
import FuzzyInference.Proofs.Logic.Closure
import Mathlib.Data.List.SplitBy

/-!
# One pass over a statement

A statement is read clause by clause, with the groups already joined and the
group still open.  Read as a whole it is cut before every OR, each group is
joined by the t-norm, and what comes of them is joined by the t-conorm.  The
two readings agree.
-/

namespace FuzzyInference

variable {α : Type} [Scalar α]

/-! ## Groups -/

/-- The clauses cut before every OR. -/
def Clause.groups (clauses : List (Clause α)) : List (List (Clause α)) :=
  clauses.splitBy fun _ next => next.connective ≠ .or

/-- The groups hold the clauses in their order, each once.  A group starts at
each OR and nowhere else. -/
structure Clause.IsCut (clauses : List (Clause α)) (groups : List (List (Clause α))) : Prop where
  flatten : groups.flatten = clauses
  ne_nil : ∀ group ∈ groups, group ≠ []
  starts : ∀ group ∈ groups.tail, ∀ first ∈ group.head?, first.connective = .or
  continues : ∀ group ∈ groups, ∀ later ∈ group.tail, later.connective ≠ .or

namespace Clause

private theorem splitBy_loop (p : Clause α → Bool) (rest : List (Clause α)) (c : Clause α)
    (held : List (Clause α)) (done : List (List (Clause α))) :
    List.splitBy.loop (fun _ next => p next) rest c held done =
      done.reverse ++ (held.reverse ++ c :: rest.takeWhile p) ::
        (rest.dropWhile p).splitBy fun _ next => p next := by
  induction rest generalizing c held done with
  | nil => simp [List.splitBy.loop]
  | cons next rest ih =>
      rw [List.splitBy.loop]
      by_cases hnext : p next
      · simp [hnext, ih]
      · simp [hnext, ih, List.splitBy]

theorem groups_cons (c : Clause α) (rest : List (Clause α)) :
    groups (c :: rest) = (c :: rest.takeWhile fun next => next.connective ≠ .or) ::
      groups (rest.dropWhile fun next => next.connective ≠ .or) := by
  have hloop := splitBy_loop (fun next => next.connective ≠ .or) rest c [] []
  simpa [groups, List.splitBy] using hloop

theorem groups_cons_of_join {c next : Clause α} (hnext : next.connective ≠ .or)
    (rest : List (Clause α)) :
    groups (c :: next :: rest) =
      (c :: next :: rest.takeWhile fun next => next.connective ≠ .or) ::
        groups (rest.dropWhile fun next => next.connective ≠ .or) := by
  simp [groups_cons, hnext]

theorem groups_cons_of_or {c next : Clause α} (hnext : next.connective = .or)
    (rest : List (Clause α)) : groups (c :: next :: rest) = [c] :: groups (next :: rest) := by
  simp [groups_cons c, hnext]

/-- What each link of a chain says of its later end holds after the first
element. -/
private theorem forall_tail_of_isChain {β : Type} {R : β → β → Prop} {Q : β → Prop}
    (hR : ∀ a b, R a b → Q b) {l : List β} (h : l.IsChain R) : ∀ b ∈ l.tail, Q b := by
  induction h with
  | nil => simp
  | singleton a => simp
  | cons_cons hab _ ih => exact List.forall_mem_cons.2 ⟨hR _ _ hab, ih⟩

theorem isCut_groups (clauses : List (Clause α)) : IsCut clauses (groups clauses) := by
  refine ⟨List.flatten_splitBy _ _, fun group hgroup => List.ne_nil_of_mem_splitBy hgroup, ?_, ?_⟩
  · refine forall_tail_of_isChain (Q := fun group => ∀ first ∈ group.head?, _) ?_
      (List.isChain_getLast_head_splitBy _ clauses)
    intro _ group ⟨_, hne, hcut⟩ first hfirst
    rw [List.head?_eq_some_head hne, Option.mem_some_iff] at hfirst
    simpa [hfirst] using hcut
  · intro group hgroup
    refine forall_tail_of_isChain (Q := fun later => later.connective ≠ .or) ?_
      (List.isChain_of_mem_splitBy hgroup)
    intro _ later hjoined
    simpa using hjoined

private theorem isChain_of_forall_tail {β : Type} {R : β → β → Prop} {l : List β}
    (h : ∀ a ∈ l, ∀ b ∈ l.tail, R a b) : l.IsChain R := by
  induction l with
  | nil => exact .nil
  | cons a l ih =>
      cases l with
      | nil => exact .singleton a
      | cons b l =>
          refine .cons_cons (h a List.mem_cons_self b List.mem_cons_self) (ih ?_)
          intro c hc d hd
          exact h c (List.mem_cons_of_mem _ hc) d (List.mem_cons_of_mem _ hd)

theorem IsCut.eq_groups {clauses : List (Clause α)} {gs : List (List (Clause α))}
    (h : IsCut clauses gs) : gs = groups clauses := by
  rw [← h.flatten, groups]
  symm
  apply List.splitBy_flatten
  · exact fun hnil => h.ne_nil [] hnil rfl
  · intro group hgroup
    apply isChain_of_forall_tail
    intro _ _ later hlater
    simpa using h.continues group hgroup later hlater
  · apply isChain_of_forall_tail
    intro before hbefore group hgroup
    have hne := h.ne_nil group (List.mem_of_mem_tail hgroup)
    refine ⟨h.ne_nil before hbefore, hne, ?_⟩
    simpa using h.starts group hgroup _ (List.head?_eq_some_head hne)

theorem groups_append {before after : List (Clause α)}
    (h : ∀ first ∈ after.head?, first.connective = .or) :
    groups (before ++ after) = groups before ++ groups after := by
  apply List.splitBy_append
  intro _ _ first hfirst
  simp [h first hfirst]

end Clause

/-! ## The two-phase reading -/

namespace Algebra

def reduce (join : Degree α → Degree α → Except (Fault α) (Degree α)) :
    List (Degree α) → Except (Fault α) (Degree α)
  | [] => .error (.misplacedConnective .nothing)
  | first :: rest => rest.foldlM join first

def groupDegrees (algebra : Algebra) (groups : List (List (Clause α))) :
    Except (Fault α) (List (Degree α)) :=
  groups.mapM fun group => reduce algebra.conjunction.evaluate (group.map Clause.degree)

/-- The degree of the clauses when every group is joined before any two groups
are. -/
def evaluateGroups (algebra : Algebra) (clauses : List (Clause α)) :
    Except (Fault α) (Degree α) := do
  reduce algebra.disjunction.evaluate (← algebra.groupDegrees (Clause.groups clauses))

def joinGroups (algebra : Algebra) :
    Option (Degree α) → List (Degree α) → Except (Fault α) (Degree α)
  | none, degrees => reduce algebra.disjunction.evaluate degrees
  | some before, degrees => degrees.foldlM algebra.disjunction.evaluate before

open Fallible

variable {algebra : Algebra} {d : Degree α}

theorem closeGroup_eq_joinGroups (before : Option (Degree α)) (degree : Degree α) :
    algebra.closeGroup before degree = algebra.joinGroups before [degree] := by
  cases before with
  | none => rfl
  | some before => simp [closeGroup, joinGroups]

theorem joinGroups_cons (before : Option (Degree α)) (degree : Degree α)
    (degrees : List (Degree α)) :
    algebra.joinGroups before (degree :: degrees) =
      algebra.closeGroup before degree >>= fun joined =>
        algebra.joinGroups (some joined) degrees := by
  cases before with
  | none => rfl
  | some before => rfl

theorem groupDegrees_cons_cons (first next : Clause α) (group : List (Clause α))
    (groups : List (List (Clause α))) :
    algebra.groupDegrees ((first :: next :: group) :: groups) =
      algebra.conjunction.evaluate first.degree next.degree >>= fun joined =>
        algebra.groupDegrees ((⟨.opening, joined⟩ :: group) :: groups) := by
  simp [groupDegrees, reduce]

theorem groupDegrees_singleton_cons (c : Clause α) (groups : List (List (Clause α))) :
    algebra.groupDegrees ([c] :: groups) =
      algebra.groupDegrees groups >>= fun degrees => .ok (c.degree :: degrees) := by
  rw [groupDegrees, List.mapM_cons]
  rfl

/-- The connective before a group says nothing of its degree. -/
theorem groupDegrees_groups_cons (c c' : Clause α) (h : c.degree = c'.degree)
    (rest : List (Clause α)) : algebra.groupDegrees (Clause.groups (c :: rest)) =
      algebra.groupDegrees (Clause.groups (c' :: rest)) := by
  simp [Clause.groups_cons, groupDegrees, h]

/-- What is left to read, with the open group as one clause before it, is cut
and joined to the groups before. -/
theorem evaluateRest_eq_ok_iff {rest : List (Clause α)} {before : Option (Degree α)}
    {degree : Degree α} (hrest : Connective.opening ∉ rest.map Clause.connective) :
    algebra.evaluateRest before degree rest = .ok d ↔
      (algebra.groupDegrees (Clause.groups (⟨.opening, degree⟩ :: rest)) >>=
        algebra.joinGroups before) = .ok d := by
  induction rest generalizing before degree with
  | nil =>
      have hone : algebra.groupDegrees (Clause.groups [⟨.opening, degree⟩]) = .ok [degree] := rfl
      rw [evaluateRest, hone, closeGroup_eq_joinGroups]
      rfl
  | cons next rest ih =>
      rw [List.map_cons, List.mem_cons, not_or] at hrest
      unfold evaluateRest
      cases hnext : next.connective with
      | opening => exact absurd hnext.symm hrest.1
      | and =>
          have hjoin : next.connective ≠ .or := by simp [hnext]
          rw [Clause.groups_cons_of_join hjoin, groupDegrees_cons_cons, bind_assoc]
          apply bind_eq_ok_congr
          intro joined
          rw [ih hrest.2, Clause.groups_cons]
      | or =>
          rw [Clause.groups_cons_of_or hnext, groupDegrees_singleton_cons, bind_assoc,
            groupDegrees_groups_cons next ⟨.opening, next.degree⟩ rfl]
          change _ ↔ (_ >>= fun degrees => algebra.joinGroups before (degree :: degrees)) = _
          simp only [joinGroups_cons]
          -- the open group is joined before anything of the next one is read
          rw [bind_comm_eq_ok]
          apply bind_eq_ok_congr
          intro joined
          exact ih hrest.2

theorem evaluate_eq_ok_iff {clauses : List (Clause α)}
    (h : Connective.WellFormed (clauses.map Clause.connective)) :
    algebra.evaluate clauses = .ok d ↔ algebra.evaluateGroups clauses = .ok d := by
  cases clauses with
  | nil => exact h.elim
  | cons first rest =>
      obtain ⟨hfirst, hrest⟩ := h
      rw [evaluate, if_pos hfirst, evaluateRest_eq_ok_iff hrest,
        groupDegrees_groups_cons ⟨.opening, first.degree⟩ first rfl]
      rfl

end Algebra

/-! ## Chains -/

def Clause.chain (join : Connective) : List (Degree α) → List (Clause α)
  | [] => []
  | first :: rest => ⟨.opening, first⟩ :: rest.map (Clause.mk join)

theorem Clause.cons_eq_chain {join : Connective} {first : Clause α} (rest : List (Clause α))
    (hfirst : first.connective = .opening) (hrest : ∀ c ∈ rest, c.connective = join) :
    first :: rest = chain join ((first :: rest).map Clause.degree) := by
  have hjoined : (rest.map Clause.degree).map (Clause.mk join) = rest := by
    rw [List.map_map]
    refine (List.map_congr_left fun c hc => ?_).trans (List.map_id rest)
    change (⟨join, c.degree⟩ : Clause α) = c
    rw [← hrest c hc]
  rw [List.map_cons, chain, hjoined, ← hfirst]

namespace Algebra

private theorem evaluateRest_and (algebra : Algebra) (group : Degree α) (rest : List (Degree α)) :
    algebra.evaluateRest none group (rest.map (Clause.mk .and)) =
      rest.foldlM algebra.conjunction.evaluate group := by
  induction rest generalizing group with
  | nil => rfl
  | cons next rest ih =>
      rw [List.map_cons, evaluateRest, List.foldlM_cons]
      exact congrArg (_ >>= ·) (funext ih)

/-- Each OR closes the group before it, which the one clause between is. -/
private theorem evaluateRest_or (algebra : Algebra) (before : Option (Degree α))
    (group : Degree α) (rest : List (Degree α)) :
    algebra.evaluateRest before group (rest.map (Clause.mk .or)) =
      algebra.closeGroup before group >>= rest.foldlM algebra.disjunction.evaluate := by
  induction rest generalizing before group with
  | nil => exact (bind_pure _).symm
  | cons next rest ih =>
      rw [List.map_cons, evaluateRest]
      refine congrArg (_ >>= ·) (funext fun groups => ?_)
      rw [ih, List.foldlM_cons]
      rfl

theorem evaluate_chain_and (algebra : Algebra) (degrees : List (Degree α)) :
    algebra.evaluate (Clause.chain .and degrees) =
      reduce algebra.conjunction.evaluate degrees := by
  cases degrees with
  | nil => rfl
  | cons first rest => exact algebra.evaluateRest_and first rest

theorem evaluate_chain_or (algebra : Algebra) (degrees : List (Degree α)) :
    algebra.evaluate (Clause.chain .or degrees) =
      reduce algebra.disjunction.evaluate degrees := by
  cases degrees with
  | nil => rfl
  | cons first rest => exact algebra.evaluateRest_or none first rest

end Algebra

namespace Algebra

/-! ## The two readings in double precision -/

/-- A statement has a degree exactly if its first clause opens it and no other
does.  Its fault is the one that is found in its connectives otherwise.  The
degree is that of its groups, and cutting the statement before every OR is what
makes them. -/
theorem evaluate_agrees_with_groups (algebra : Algebra) (clauses : List (Clause Float)) :
    ((∃ d, algebra.evaluate clauses = .ok d) ↔
      Connective.WellFormed (clauses.map Clause.connective)) ∧
    (¬ Connective.WellFormed (clauses.map Clause.connective) →
      ∃ fault, ConnectiveFault.find? .statement (clauses.map Clause.connective) = some fault ∧
        algebra.evaluate clauses = .error (.misplacedConnective fault)) ∧
    (∀ groups, Clause.IsCut clauses groups ↔ groups = Clause.groups clauses) ∧
    ∀ d, algebra.evaluate clauses = .ok d → algebra.evaluateGroups clauses = .ok d := by
  have hfault (h : ¬ Connective.WellFormed (clauses.map Clause.connective)) :
      ∃ fault, ConnectiveFault.find? .statement (clauses.map Clause.connective) = some fault ∧
        algebra.evaluate clauses = .error (.misplacedConnective fault) := by
    rw [← ConnectiveFault.find?_eq_none_iff] at h
    obtain ⟨fault, hfind⟩ := Option.ne_none_iff_exists'.1 h
    exact ⟨fault, hfind, algebra.evaluate_of_fault hfind⟩
  have hwell {d : Degree Float} (hd : algebra.evaluate clauses = .ok d) :
      Connective.WellFormed (clauses.map Clause.connective) := by
    by_contra hnot
    obtain ⟨fault, -, herror⟩ := hfault hnot
    rw [herror] at hd
    cases hd
  refine ⟨⟨fun ⟨d, hd⟩ => hwell hd, algebra.exists_evaluate⟩, hfault, fun groups => ?_, ?_⟩
  · exact ⟨fun h => h.eq_groups, fun h => h ▸ Clause.isCut_groups clauses⟩
  · intro d hd
    exact (evaluate_eq_ok_iff (hwell hd)).1 hd

end Algebra

end FuzzyInference
