import FuzzyInference.Proofs.Logic.Congruence
import FuzzyInference.Proofs.Logic.Interpretation

/-!
# Crisp statements

On degrees that are 0 or 1 every AND is a conjunction and every OR a
disjunction, also where a formula divides by nothing.  So a statement of such
degrees is true or false, and no algebra reads it in another way.
-/

namespace FuzzyInference

open Fallible

/-! ## Truth values -/

namespace Degree

variable {a : Degree Float} {p : Bool}

def IsCrisp (a : Degree Float) : Prop := a.isZero = true ∨ a.isOne = true

def IsTruth (a : Degree Float) (p : Bool) : Prop := a.Same (ofBool p)

theorem IsCrisp.isTruth (h : a.IsCrisp) : a.IsTruth a.isOne := by
  cases hone : a.isOne with
  | true => exact .of_beq hone
  | false =>
      rcases h with hzero | hone'
      · exact .of_beq hzero
      · rw [hone'] at hone
        cases hone

theorem IsTruth.value_beq (h : a.IsTruth p) : (a.value == if p then 1 else 0) = true := by
  rcases h with hvalue | ⟨-, hnan⟩
  · cases p <;> exact hvalue
  · have hnumber : Scalar.isNaN (ofBool p : Degree Float).value = false := by
      cases p <;> decide +kernel
    rw [hnumber] at hnan
    cases hnan

end Degree

open Degree in
def Reads (op : Bool → Bool → Bool)
    (join : Degree Float → Degree Float → Except (Fault Float) (Degree Float)) : Prop :=
  ∀ a b p q, IsTruth a p → IsTruth b q → ∃ d, join a b = .ok d ∧ d.IsTruth (op p q)

/-! ## Norms -/

/-- The truth table of a norm decides what it makes of truth values. -/
private theorem reads_of_table {op : Bool → Bool → Bool}
    {join : Degree Float → Degree Float → Except (Fault Float) (Degree Float)}
    (hjoin : ∀ {a a' b b'}, Degree.Same a a' → Degree.Same b b' →
      Agree Degree.Same (join a b) (join a' b'))
    (htable : ∀ p q, ((join (.ofBool p) (.ofBool q)).toOption.any fun d =>
      d.value == (Degree.ofBool (op p q)).value) = true) : Reads op join := by
  intro a b p q ha hb
  have hcell := htable p q
  simp only [Option.any_eq_true, toOption_eq_some] at hcell
  obtain ⟨d, hd, hvalue⟩ := hcell
  obtain ⟨e, he, hsame⟩ := (hjoin ha.symm hb.symm).exists_ok hd
  exact ⟨e, he, hsame.symm.trans (.of_beq hvalue)⟩

theorem TNorm.reads_and (norm : TNorm) : Reads and norm.evaluate := by
  refine reads_of_table norm.evaluate_agree fun p q => ?_
  cases norm <;> cases p <;> cases q <;> decide +kernel

theorem TConorm.reads_or (conorm : TConorm) : Reads or conorm.evaluate := by
  refine reads_of_table conorm.evaluate_agree fun p q => ?_
  cases conorm <;> cases p <;> cases q <;> decide +kernel

/-! ## Statements -/

private theorem foldl_and (p : Bool) (l : List Bool) : l.foldl and p = (p :: l).all id := by
  induction l generalizing p with
  | nil => simp
  | cons q l ih => simp [ih, Bool.and_assoc]

private theorem foldl_or (p : Bool) (l : List Bool) : l.foldl or p = (p :: l).any id := by
  induction l generalizing p with
  | nil => simp
  | cons q l ih => simp [ih, Bool.or_assoc]

theorem joined?_and {truths : List Bool} (hne : truths ≠ []) :
    joined? and truths = some (truths.all id) := by
  obtain ⟨p, truths, rfl⟩ := List.exists_cons_of_ne_nil hne
  exact congrArg some (foldl_and p truths)

theorem joined?_or {truths : List Bool} (hne : truths ≠ []) :
    joined? or truths = some (truths.any id) := by
  obtain ⟨p, truths, rfl⟩ := List.exists_cons_of_ne_nil hne
  exact congrArg some (foldl_or p truths)

section Statements

variable {α : Type} [Scalar α]

def Clause.allHold (group : List (Clause α)) : Bool := group.all fun c => c.degree.isOne

def Clause.holds (clauses : List (Clause α)) : Bool := (groups clauses).any allHold

theorem Clause.any_allHold_of_joinedTwice? {groups : List (List (Clause α))}
    (hne : ∀ group ∈ groups, group ≠ []) {p : Bool}
    (h : joinedTwice? and or (groups.map fun group => group.map fun c => c.degree.isOne) =
      some p) : groups.any allHold = p := by
  have hgroup : ∀ group ∈ groups,
      joined? and (group.map fun c => c.degree.isOne) = some (allHold group) := by
    intro group hgroup
    rw [joined?_and (mt List.map_eq_nil_iff.1 (hne group hgroup)), List.all_map]
    rfl
  have htruths : (groups.map fun group => group.map fun c => c.degree.isOne).filterMap
      (joined? and) = groups.map allHold := by
    rw [List.filterMap_map]
    exact (List.filterMap_congr hgroup).trans (congrFun List.filterMap_eq_map _)
  rw [joinedTwice?, htruths] at h
  have hsome : groups.map allHold ≠ [] := by
    intro hnil
    rw [hnil] at h
    cases h
  rw [joined?_or hsome, List.any_map] at h
  exact Option.some.inj h

end Statements

namespace Algebra

variable (algebra : Algebra) {clauses : List (Clause Float)}

theorem exists_evaluate_of_crisp (hwell : Connective.WellFormed (clauses.map Clause.connective))
    (hcrisp : ∀ c ∈ clauses, c.degree.IsCrisp) :
    ∃ d, algebra.evaluate clauses = .ok d ∧ d.IsTruth (Clause.holds clauses) := by
  have hcut := Clause.isCut_groups clauses
  have htruths : List.Forall₂ (List.Forall₂ fun c p => Degree.IsTruth c.degree p)
      (Clause.groups clauses)
      ((Clause.groups clauses).map fun group => group.map fun c => c.degree.isOne) := by
    rw [List.forall₂_map_right_iff, List.forall₂_same]
    intro group hgroup
    rw [List.forall₂_map_right_iff, List.forall₂_same]
    intro c hc
    rw [← hcut.flatten] at hcrisp
    exact (hcrisp c (List.mem_flatten_of_mem hgroup hc)).isTruth
  obtain ⟨d, p, hd, hp, htruth⟩ := evaluate_interprets algebra.conjunction.reads_and
    algebra.disjunction.reads_or hwell htruths
  have hholds : Clause.holds clauses = p := Clause.any_allHold_of_joinedTwice? hcut.ne_nil hp
  exact ⟨d, hd, hholds ▸ htruth⟩

/-- In double precision a well-formed statement whose degrees are all 0 or 1 has
the degree 1 if all degrees of one of its groups are 1, and 0 otherwise, so that
all algebras read it alike. -/
theorem evaluate_of_crisp (hwell : Connective.WellFormed (clauses.map Clause.connective))
    (hcrisp : ∀ c ∈ clauses, c.degree.IsCrisp) :
    (∀ algebra : Algebra, ∃ d, algebra.evaluate clauses = .ok d ∧
      (d.value == if Clause.holds clauses then 1 else 0) = true) ∧
    ∀ algebra algebra' : Algebra,
      Agree Degree.Same (algebra.evaluate clauses) (algebra'.evaluate clauses) := by
  constructor
  · intro algebra
    obtain ⟨d, hd, htruth⟩ := algebra.exists_evaluate_of_crisp hwell hcrisp
    exact ⟨d, hd, htruth.value_beq⟩
  · intro algebra algebra'
    obtain ⟨d, hd, htruth⟩ := algebra.exists_evaluate_of_crisp hwell hcrisp
    obtain ⟨d', hd', htruth'⟩ := algebra'.exists_evaluate_of_crisp hwell hcrisp
    rw [hd, hd']
    exact .ok (htruth.trans htruth'.symm)

theorem evaluate_of_crisp_of_four_clauses :
    let clauses : List (Clause Float) := [⟨.opening, 1⟩, ⟨.and, 0⟩, ⟨.or, 1⟩, ⟨.and, 1⟩]
    ∀ algebra : Algebra, ∃ d, algebra.evaluate clauses = .ok d ∧ (d.value == 1) = true := by
  intro clauses algebra
  have hcrisp : ∀ c ∈ clauses, c.degree.IsCrisp := by
    have hrun : (clauses.all fun c => c.degree.isZero || c.degree.isOne) = true := by
      decide +kernel
    simp only [List.all_eq_true, Bool.or_eq_true] at hrun
    exact hrun
  have hholds : Clause.holds clauses = true := by decide +kernel
  obtain ⟨d, hd, hvalue⟩ := (evaluate_of_crisp (by decide) hcrisp).1 algebra
  rw [hholds] at hvalue
  exact ⟨d, hd, hvalue⟩

end Algebra

end FuzzyInference
