import FuzzyInference.Proofs.Logic.Interpretation

/-!
# Clauses in another order

A statement can be written down from the degrees of its groups.  Where the norms
do not mind the order of what they join, neither the order of the degrees in a
group nor that of the groups makes a difference.
-/

namespace FuzzyInference

open Binary

section Generic

variable {α κ : Type} [Scalar α]

/-! ## Statements of given groups -/

namespace Clause

/-- The clauses of one group, of which the first attaches as it is told to and
the others by AND. -/
def ofGroup (attached : Connective) : List (Degree α) → List (Clause α)
  | [] => []
  | first :: rest => ⟨attached, first⟩ :: rest.map fun degree => ⟨.and, degree⟩

def ofGroups : List (List (Degree α)) → List (Clause α)
  | [] => []
  | first :: rest => ofGroup .opening first ++ rest.flatMap (ofGroup .or)

variable {attached : Connective} {group : List (Degree α)} {groups : List (List (Degree α))}

theorem map_degree_ofGroup (attached : Connective) (group : List (Degree α)) :
    (ofGroup attached group).map degree = group := by
  cases group with
  | nil => rfl
  | cons first rest => simp [ofGroup, Function.comp_def]

theorem ofGroup_ne_nil (hne : group ≠ []) : ofGroup attached group ≠ [] := by
  rw [← map_degree_ofGroup attached group] at hne
  exact mt (congrArg (List.map degree)) hne

theorem connective_of_mem_tail {c : Clause α} (hc : c ∈ (ofGroup attached group).tail) :
    c.connective = .and := by
  cases group with
  | nil => simp [ofGroup] at hc
  | cons first rest =>
      obtain ⟨degree, -, rfl⟩ := List.mem_map.1 hc
      rfl

theorem connective_of_mem {c : Clause α} (hc : c ∈ ofGroup attached group) :
    c.connective = attached ∨ c.connective = .and := by
  cases group with
  | nil => simp [ofGroup] at hc
  | cons first rest =>
      rcases List.mem_cons.1 hc with rfl | hc
      · exact .inl rfl
      · have htail : c ∈ (ofGroup attached (first :: rest)).tail := hc
        exact .inr (connective_of_mem_tail htail)

theorem connective_of_head? {c : Clause α} (hc : c ∈ (ofGroup attached group).head?) :
    c.connective = attached := by
  cases group with
  | nil => simp [ofGroup] at hc
  | cons first rest =>
      rw [ofGroup, List.head?_cons, Option.mem_some_iff] at hc
      rw [← hc]

theorem wellFormed_ofGroups (hgroups : groups ≠ []) (hne : ∀ group ∈ groups, group ≠ []) :
    Connective.WellFormed ((ofGroups groups).map connective) := by
  cases groups with
  | nil => exact absurd rfl hgroups
  | cons first rest =>
      cases first with
      | nil => exact absurd rfl (hne [] List.mem_cons_self)
      | cons degree degrees =>
          refine ⟨rfl, fun hmem => ?_⟩
          obtain ⟨c, hc, hopening⟩ := List.mem_map.1 hmem
          rcases List.mem_append.1 hc with hc | hc
          · have htail : c ∈ (ofGroup .opening (degree :: degrees)).tail := hc
            rw [connective_of_mem_tail htail] at hopening
            cases hopening
          · obtain ⟨group, -, hc⟩ := List.mem_flatMap.1 hc
            rcases connective_of_mem hc with hor | hand
            · rw [hor] at hopening
              cases hopening
            · rw [hand] at hopening
              cases hopening

theorem degreeGroups_ofGroups (hne : ∀ group ∈ groups, group ≠ []) :
    degreeGroups (ofGroups groups) = groups := by
  cases groups with
  | nil => rfl
  | cons first rest =>
      obtain ⟨hfirst, hrest⟩ := List.forall_mem_cons.1 hne
      have hcut : IsCut (ofGroups (first :: rest))
          (ofGroup .opening first :: rest.map (ofGroup .or)) := by
        refine ⟨by rw [List.flatten_cons, ← List.flatMap_def, ofGroups], ?_, ?_, ?_⟩
        · rw [List.forall_mem_cons, List.forall_mem_map]
          exact ⟨ofGroup_ne_nil hfirst, fun group hgroup => ofGroup_ne_nil (hrest group hgroup)⟩
        · rw [List.tail_cons, List.forall_mem_map]
          exact fun _ _ c hc => connective_of_head? hc
        · have hand {attached : Connective} {group : List (Degree α)} :
              ∀ c ∈ (ofGroup attached group).tail, c.connective ≠ .or := by
            intro c hc
            rw [connective_of_mem_tail hc]
            exact fun h => nomatch h
          rw [List.forall_mem_cons, List.forall_mem_map]
          exact ⟨hand, fun _ _ => hand⟩
      rw [degreeGroups, ← hcut.eq_groups, List.map_cons, List.map_map, map_degree_ofGroup]
      simp [Function.comp_def, map_degree_ofGroup]

end Clause

/-! ## Rearranging -/

/-- The same groups in some order, each with the same members in some order. -/
def Rearranged (groups groups' : List (List κ)) : Prop :=
  ∃ moved, groups.Perm moved ∧ List.Forall₂ List.Perm moved groups'

namespace Rearranged

variable {groups groups' : List (List κ)}

theorem map {β : Type} (f : κ → β) (h : Rearranged groups groups') :
    Rearranged (groups.map fun group => group.map f) (groups'.map fun group => group.map f) := by
  obtain ⟨moved, hperm, hgroups⟩ := h
  exact ⟨_, hperm.map _, List.rel_map (fun _ _ hgroup => hgroup.map f) hgroups⟩

theorem exists_mem_perm (h : Rearranged groups groups') :
    ∀ group' ∈ groups', ∃ group ∈ groups, group.Perm group' := by
  obtain ⟨moved, hperm, hgroups⟩ := h
  intro group' hgroup'
  obtain ⟨group, hgroup, hmembers⟩ := Fallible.exists_mem_of_forall₂ hgroups.flip hgroup'
  exact ⟨group, hperm.mem_iff.2 hgroup, hmembers⟩

theorem length_eq (h : Rearranged groups groups') : groups.length = groups'.length := by
  obtain ⟨moved, hperm, hgroups⟩ := h
  exact hperm.length_eq.trans hgroups.length_eq

end Rearranged

theorem joinedTwice?_rearranged {meet join : κ → κ → κ} [Std.Commutative meet]
    [Std.Associative meet] [Std.Commutative join] [Std.Associative join]
    {groups groups' : List (List κ)} (h : Rearranged groups groups') :
    joinedTwice? meet join groups = joinedTwice? meet join groups' := by
  obtain ⟨moved, hperm, hgroups⟩ := h
  have hjoined : moved.filterMap (joined? meet) = groups'.filterMap (joined? meet) := by
    clear hperm
    induction hgroups with
    | nil => rfl
    | cons hgroup _ ih => rw [List.filterMap_cons, List.filterMap_cons, joined?_perm hgroup, ih]
  rw [joinedTwice?, joinedTwice?, ← hjoined]
  exact joined?_perm (hperm.filterMap _)

namespace Algebra

variable {algebra : Algebra} (value : Degree α → κ) {meet join : κ → κ → κ}
  {clauses : List (Clause α)}

theorem exists_evaluate_rearranged [Std.Commutative meet] [Std.Associative meet]
    [Std.Commutative join] [Std.Associative join]
    (hmeet : Interprets (fun d k => value d = k) meet algebra.conjunction.evaluate)
    (hjoin : Interprets (fun d k => value d = k) join algebra.disjunction.evaluate)
    (hwell : Connective.WellFormed (clauses.map Clause.connective))
    {groups : List (List (Degree α))} (h : Rearranged (Clause.degreeGroups clauses) groups) :
    ∃ d d', algebra.evaluate clauses = .ok d ∧
      algebra.evaluate (Clause.ofGroups groups) = .ok d' ∧ value d = value d' := by
  have hcut := Clause.isCut_groups clauses
  have hgroups : groups ≠ [] := by
    intro hnil
    have hlength := h.length_eq
    rw [hnil, Clause.degreeGroups, List.length_map, List.length_nil,
      List.length_eq_zero_iff] at hlength
    have hclauses := hcut.flatten
    rw [hlength] at hclauses
    rw [← hclauses] at hwell
    exact hwell.elim
  have hne : ∀ group ∈ groups, group ≠ [] := by
    intro group hgroup hnil
    obtain ⟨before, hbefore, hperm⟩ := h.exists_mem_perm group hgroup
    obtain ⟨members, hmembers, rfl⟩ := List.mem_map.1 hbefore
    rw [hnil, List.perm_nil, List.map_eq_nil_iff] at hperm
    exact hcut.ne_nil members hmembers hperm
  obtain ⟨d, hd, hvalue⟩ := exists_evaluate_value value hmeet hjoin hwell
  obtain ⟨d', hd', hvalue'⟩ :=
    exists_evaluate_value value hmeet hjoin (Clause.wellFormed_ofGroups hgroups hne)
  rw [Clause.degreeGroups_ofGroups hne] at hvalue'
  refine ⟨d, d', hd, hd', Option.some.inj ?_⟩
  rw [← hvalue, ← hvalue']
  exact joinedTwice?_rearranged (h.map value)

end Algebra

end Generic

/-- The order of the degrees in a group and that of the groups make no
difference to a well-formed statement: in exact arithmetic to no reading of AND
and OR, and in double precision not where AND is the minimum and OR the
maximum. -/
theorem Algebra.evaluate_rearranged :
    (∀ (algebra : Algebra) (clauses : List (Clause ℚ)) (groups : List (List (Degree ℚ))),
      Connective.WellFormed (clauses.map Clause.connective) →
      Rearranged (Clause.degreeGroups clauses) groups →
      ∃ d, algebra.evaluate clauses = .ok d ∧
        algebra.evaluate (Clause.ofGroups groups) = .ok d) ∧
    ∀ (clauses : List (Clause Float)) (groups : List (List (Degree Float))),
      Connective.WellFormed (clauses.map Clause.connective) →
      Rearranged (Clause.degreeGroups clauses) groups →
      ∃ d d', standard.evaluate clauses = .ok d ∧
        standard.evaluate (Clause.ofGroups groups) = .ok d' ∧ (d == d') = true := by
  constructor
  · intro algebra clauses groups hwell hgroups
    obtain ⟨d, d', hd, hd', hvalue⟩ := exists_evaluate_rearranged (fun d => d)
      algebra.conjunction.interprets_exact algebra.disjunction.interprets_exact hwell hgroups
    exact ⟨d, hd, hvalue ▸ hd'⟩
  · intro clauses groups hwell hgroups
    have hmin : Interprets _ min (standard.conjunction.evaluate) := TNorm.interprets_level_min
    have hmax : Interprets _ max (standard.disjunction.evaluate) := TConorm.interprets_level_max
    obtain ⟨d, d', hd, hd', hlevel⟩ := exists_evaluate_rearranged _ hmin hmax hwell hgroups
    exact ⟨d, d', hd, hd', (beq_iff_level d.not_isNaN d'.not_isNaN).2 hlevel⟩

theorem Algebra.evaluate_rearranged_of_three_clauses :
    (∃ d, (⟨.einstein, .hamacher⟩ : Algebra).evaluate
        [⟨.opening, .nearest (1 / 2 : ℚ)⟩, ⟨.and, .nearest (1 / 3)⟩, ⟨.or, .nearest (1 / 4)⟩] =
          .ok d ∧
      (⟨.einstein, .hamacher⟩ : Algebra).evaluate
        [⟨.opening, .nearest (1 / 4 : ℚ)⟩, ⟨.or, .nearest (1 / 3)⟩, ⟨.and, .nearest (1 / 2)⟩] =
          .ok d) ∧
    ∃ d d', standard.evaluate
        [⟨.opening, .nearest (0.5 : Float)⟩, ⟨.and, .nearest 0.3⟩, ⟨.or, .nearest 0.25⟩] = .ok d ∧
      standard.evaluate
        [⟨.opening, .nearest (0.25 : Float)⟩, ⟨.or, .nearest 0.3⟩, ⟨.and, .nearest 0.5⟩] =
          .ok d' ∧ (d == d') = true := by
  have hrearranged {α : Type} [Scalar α] (a b c : Degree α) :
      Rearranged (Clause.degreeGroups [⟨.opening, a⟩, ⟨.and, b⟩, ⟨.or, c⟩]) [[c], [b, a]] :=
    ⟨[[c], [a, b]], .swap _ _ _, .cons (.refl _) (.cons (.swap _ _ _) .nil)⟩
  constructor
  · exact evaluate_rearranged.1 _ _ _ (by decide) (hrearranged (.nearest (1 / 2)) _ _)
  · exact evaluate_rearranged.2 _ _ (by decide) (hrearranged (.nearest 0.5) _ _)

end FuzzyInference
