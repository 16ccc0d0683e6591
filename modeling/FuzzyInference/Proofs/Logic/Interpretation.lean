import FuzzyInference.Proofs.Binary.Degree
import FuzzyInference.Proofs.Logic.Grouping
import FuzzyInference.Proofs.Logic.Triangular

/-!
# Statements in another domain

Degrees may stand for other things, as truth values do for what is true or
false.  Where the two norms make of degrees what two operations make of the
things they stand for, a statement stands for the things of each group joined by
the first operation and what comes of the groups by the second.  Such operations
are the exact norms, and the smaller and the greater of two numbers.
-/

namespace FuzzyInference

open Fallible Binary

/-! ## Joining lists -/

section Joining

variable {κ : Type} {op : κ → κ → κ} {l l' : List κ}

def joined? (op : κ → κ → κ) : List κ → Option κ
  | [] => none
  | k :: ks => some (ks.foldl op k)

@[simp] theorem joined?_cons (k : κ) (ks : List κ) :
    joined? op (k :: ks) = some (ks.foldl op k) := rfl

theorem joined?_perm [Std.Commutative op] [Std.Associative op] (h : l.Perm l') :
    joined? op l = joined? op l' := by
  induction h with
  | nil => rfl
  | cons k h => exact congrArg some h.foldl_op_eq
  | swap k k' l =>
      have hcomm : op k k' = op k' k := Std.Commutative.comm k k'
      rw [joined?, joined?, List.foldl_cons, List.foldl_cons, hcomm]
  | trans _ _ ih ih' => exact ih.trans ih'

/-- What is joined first makes no difference to what is associative. -/
theorem joined?_flatten [Std.Associative op] (ls : List (List κ)) :
    joined? op ls.flatten = joined? op (ls.filterMap (joined? op)) := by
  have hfold (ls : List (List κ)) (k : κ) :
      ls.flatten.foldl op k = (ls.filterMap (joined? op)).foldl op k := by
    induction ls generalizing k with
    | nil => rfl
    | cons l ls ih =>
        cases l with
        | nil => exact ih k
        | cons k' l =>
            rw [List.flatten_cons, List.foldl_append, ih, List.filterMap_cons_some (joined?_cons k' l),
              List.foldl_cons, List.foldl_cons, List.foldl_assoc]
  induction ls with
  | nil => rfl
  | cons l ls ih =>
      cases l with
      | nil => exact ih
      | cons k l =>
          rw [List.flatten_cons, List.cons_append, joined?_cons, List.foldl_append, hfold,
            List.filterMap_cons_some (joined?_cons k l), joined?_cons]

/-- Each of several lists joined by `meet`, and what comes of them by `join`. -/
def joinedTwice? (meet join : κ → κ → κ) (ls : List (List κ)) : Option κ :=
  joined? join (ls.filterMap (joined? meet))

theorem joinedTwice?_flatten {meet join : κ → κ → κ} [Std.Associative join]
    (lss : List (List (List κ))) : joinedTwice? meet join lss.flatten =
      joined? join (lss.filterMap (joinedTwice? meet join)) := by
  rw [joinedTwice?, List.filterMap_flatten, joined?_flatten, List.filterMap_map]
  rfl

end Joining

/-! ## Interpretations -/

section Interpretations

variable {α κ : Type} [Scalar α] {R : Degree α → κ → Prop}

/-- What is computed of degrees stands for what `op` makes of the things that
they stand for. -/
def Interprets (R : Degree α → κ → Prop) (op : κ → κ → κ)
    (join : Degree α → Degree α → Except (Fault α) (Degree α)) : Prop :=
  ∀ a b p q, R a p → R b q → ∃ d, join a b = .ok d ∧ R d (op p q)

namespace Interprets

variable {op : κ → κ → κ} {join : Degree α → Degree α → Except (Fault α) (Degree α)}

theorem foldlM (h : Interprets R op join) {degrees : List (Degree α)} {things : List κ}
    (hdegrees : List.Forall₂ R degrees things) {a : Degree α} {p : κ} (ha : R a p) :
    ∃ d, degrees.foldlM join a = .ok d ∧ R d (things.foldl op p) := by
  induction hdegrees generalizing a p with
  | nil => exact ⟨a, rfl, ha⟩
  | cons hb _ ih =>
      obtain ⟨joined, hjoined, hthing⟩ := h _ _ _ _ ha hb
      obtain ⟨d, hd, hwhole⟩ := ih hthing
      exact ⟨d, bind_eq_ok.2 ⟨joined, hjoined, hd⟩, hwhole⟩

theorem reduce (h : Interprets R op join) {degrees : List (Degree α)} {things : List κ}
    (hdegrees : List.Forall₂ R degrees things) (hne : degrees ≠ []) :
    ∃ d k, Algebra.reduce join degrees = .ok d ∧ joined? op things = some k ∧ R d k := by
  cases hdegrees with
  | nil => exact absurd rfl hne
  | cons hfirst hrest =>
      obtain ⟨d, hd, hthing⟩ := h.foldlM hrest hfirst
      exact ⟨d, _, hd, rfl, hthing⟩

end Interprets

namespace Algebra

variable {algebra : Algebra} {meet join : κ → κ → κ}

theorem groupDegrees_interprets (hmeet : Interprets R meet algebra.conjunction.evaluate)
    {groups : List (List (Clause α))} {things : List (List κ)}
    (hgroups : List.Forall₂ (List.Forall₂ fun c k => R c.degree k) groups things)
    (hne : ∀ group ∈ groups, group ≠ []) :
    ∃ degrees, algebra.groupDegrees groups = .ok degrees ∧
      List.Forall₂ R degrees (things.filterMap (joined? meet)) := by
  induction hgroups with
  | nil => exact ⟨[], rfl, .nil⟩
  | @cons group _ _ _ hgroup _ ih =>
      obtain ⟨hfirst, hrest⟩ := List.forall_mem_cons.1 hne
      have hdegrees := List.forall₂_map_left_iff.2 hgroup
      obtain ⟨d, k, hd, hk, hthing⟩ := hmeet.reduce hdegrees (mt List.map_eq_nil_iff.1 hfirst)
      obtain ⟨degrees, hdegrees, hthings⟩ := ih hrest
      rw [List.filterMap_cons_some hk]
      exact ⟨d :: degrees, mapM_eq_ok_iff.2 (.cons hd (mapM_eq_ok_iff.1 hdegrees)),
        .cons hthing hthings⟩

/-- A statement stands for the things of its groups, joined twice. -/
theorem evaluate_interprets (hmeet : Interprets R meet algebra.conjunction.evaluate)
    (hjoin : Interprets R join algebra.disjunction.evaluate) {clauses : List (Clause α)}
    (hwell : Connective.WellFormed (clauses.map Clause.connective)) {things : List (List κ)}
    (hthings : List.Forall₂ (List.Forall₂ fun c k => R c.degree k) (Clause.groups clauses)
      things) :
    ∃ d k, algebra.evaluate clauses = .ok d ∧ joinedTwice? meet join things = some k ∧ R d k := by
  have hcut := Clause.isCut_groups clauses
  obtain ⟨degrees, hdegrees, hstand⟩ := groupDegrees_interprets hmeet hthings hcut.ne_nil
  -- a well-formed statement has a clause, and so a group
  have hne : degrees ≠ [] := by
    rintro rfl
    have hgroups := List.forall₂_nil_right_iff.1 (mapM_eq_ok_iff.1 hdegrees)
    have hnil : clauses = [] := by
      rw [← hcut.flatten, hgroups]
      rfl
    rw [hnil] at hwell
    exact hwell.elim
  obtain ⟨d, k, hd, hk, hthing⟩ := hjoin.reduce hstand hne
  exact ⟨d, k, (evaluate_eq_ok_iff hwell).2 (bind_eq_ok.2 ⟨degrees, hdegrees, hd⟩), hk, hthing⟩

end Algebra

/-! ## Values -/

def Clause.degreeGroups (clauses : List (Clause α)) : List (List (Degree α)) :=
  (groups clauses).map fun group => group.map degree

theorem Clause.degreeGroups_append {before after : List (Clause α)}
    (h : ∀ first ∈ after.head?, first.connective = .or) :
    degreeGroups (before ++ after) = degreeGroups before ++ degreeGroups after := by
  rw [degreeGroups, groups_append h, List.map_append]
  rfl

theorem Clause.degreeGroups_flatten {parts : List (List (Clause α))}
    (h : ∀ part ∈ parts.tail, (part.map connective).head? = some .or) :
    degreeGroups parts.flatten = (parts.map degreeGroups).flatten := by
  induction parts with
  | nil => rfl
  | cons part rest ih =>
      rw [List.tail_cons] at h
      rw [List.flatten_cons, degreeGroups_append, ih fun later hlater => h later
        (List.mem_of_mem_tail hlater), List.map_cons, List.flatten_cons]
      cases rest with
      | nil => simp
      | cons next rest =>
          have hnext := h next List.mem_cons_self
          cases next with
          | nil => cases hnext
          | cons first tail =>
              intro c hc
              rw [List.flatten_cons, List.cons_append, List.head?_cons, Option.mem_some_iff] at hc
              exact hc ▸ Option.some.inj hnext

theorem Clause.degreeGroups_cons_congr {c c' : Clause α} (h : c.degree = c'.degree)
    (rest : List (Clause α)) : degreeGroups (c :: rest) = degreeGroups (c' :: rest) := by
  simp [degreeGroups, groups_cons, h]

namespace Algebra

variable {algebra : Algebra} {meet join : κ → κ → κ} {clauses : List (Clause α)}

/-- Where the norms act on the values of degrees, a statement has the value of
its groups. -/
theorem exists_evaluate_value (value : Degree α → κ)
    (hmeet : Interprets (fun d k => value d = k) meet algebra.conjunction.evaluate)
    (hjoin : Interprets (fun d k => value d = k) join algebra.disjunction.evaluate)
    (hwell : Connective.WellFormed (clauses.map Clause.connective)) :
    ∃ d, algebra.evaluate clauses = .ok d ∧ joinedTwice? meet join
      ((Clause.degreeGroups clauses).map fun group => group.map value) = some (value d) := by
  have hthings : List.Forall₂ (List.Forall₂ fun c k => value c.degree = k)
      (Clause.groups clauses)
      ((Clause.degreeGroups clauses).map fun group => group.map value) := by
    rw [Clause.degreeGroups, List.map_map, List.forall₂_map_right_iff, List.forall₂_same]
    intro group _
    rw [Function.comp_apply, List.map_map, List.forall₂_map_right_iff, List.forall₂_same]
    exact fun c _ => rfl
  obtain ⟨d, k, hd, hk, rfl⟩ := evaluate_interprets hmeet hjoin hwell hthings
  exact ⟨d, hd, hk⟩

theorem exists_evaluate_joined {meet join : Degree α → Degree α → Degree α}
    (hmeet : Interprets Eq meet algebra.conjunction.evaluate)
    (hjoin : Interprets Eq join algebra.disjunction.evaluate)
    (hwell : Connective.WellFormed (clauses.map Clause.connective)) :
    ∃ d, algebra.evaluate clauses = .ok d ∧
      joinedTwice? meet join (Clause.degreeGroups clauses) = some d := by
  obtain ⟨d, hd, hjoined⟩ := exists_evaluate_value (fun d => d) hmeet hjoin hwell
  simp only [List.map_id'] at hjoined
  exact ⟨d, hd, hjoined⟩

end Algebra

theorem Interprets.of_eq_ok {op : Degree α → Degree α → Degree α}
    {join : Degree α → Degree α → Except (Fault α) (Degree α)}
    (h : ∀ a b, join a b = .ok (op a b)) : Interprets Eq op join := by
  rintro a b _ _ rfl rfl
  exact ⟨_, h a b, rfl⟩

end Interpretations

/-! ## Exact arithmetic -/

theorem TNorm.interprets_exact (norm : TNorm) : Interprets Eq norm.exact norm.evaluate :=
  .of_eq_ok norm.evaluate_eq_exact

theorem TConorm.interprets_exact (conorm : TConorm) : Interprets Eq conorm.exact conorm.evaluate :=
  .of_eq_ok conorm.evaluate_eq_exact

instance (norm : TNorm) : Std.Commutative norm.exact := ⟨norm.isTriangular_exact.comm⟩

instance (norm : TNorm) : Std.Associative norm.exact := ⟨norm.isTriangular_exact.assoc⟩

instance (conorm : TConorm) : Std.Commutative conorm.exact := ⟨conorm.isTriangular_exact.comm⟩

instance (conorm : TConorm) : Std.Associative conorm.exact := ⟨conorm.isTriangular_exact.assoc⟩

/-! ## Double precision -/

theorem TNorm.interprets_level_min :
    Interprets (fun d k => level d.value = k) min minimum.evaluate := by
  rintro a b _ _ rfl rfl
  exact ⟨min a b, rfl, Degree.level_min a b⟩

theorem TConorm.interprets_level_max :
    Interprets (fun d k => level d.value = k) max maximum.evaluate := by
  rintro a b _ _ rfl rfl
  exact ⟨max a b, rfl, Degree.level_max a b⟩

end FuzzyInference
