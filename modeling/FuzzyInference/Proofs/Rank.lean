import FuzzyInference.Degree
import Mathlib.Order.MinMax

/-!
# Numbers in their order

Rounded and exact numbers are compared in one way: each has a rank, and what is
no number has none.  The larger of two numbers has the greater rank, and the
greatest of several the greatest.  Degrees are numbers, so they are in the order
of their ranks, and clamping between them moves nothing that ranks between them.
-/

namespace FuzzyInference

open Scalar

variable {α κ : Type} [LinearOrder κ] {nan : α → Prop} {rank : α → κ} {a b x : α} {xs : List α}

/-- Where an operation keeps the one of two numbers that ranks higher, it keeps
the highest one along a list. -/
theorem foldl_highest (rank : α → κ) {op : α → α → α}
    (hop : ∀ a b, ¬ nan a → ¬ nan b → op a b = if rank a < rank b then b else a)
    (hx : ¬ nan x) (hxs : ∀ y ∈ xs, ¬ nan y) :
    xs.foldl op x ∈ x :: xs ∧ ∀ y ∈ x :: xs, rank y ≤ rank (xs.foldl op x) := by
  induction xs generalizing x with
  | nil => simp
  | cons y xs ih =>
      obtain ⟨hy, hrest⟩ := List.forall_mem_cons.1 hxs
      rw [List.foldl_cons, hop x y hx hy]
      split_ifs with hlt
      · obtain ⟨hmem, hle⟩ := ih hy hrest
        refine ⟨List.mem_cons_of_mem _ hmem, List.forall_mem_cons.2 ⟨?_, hle⟩⟩
        exact hlt.le.trans (hle y List.mem_cons_self)
      · obtain ⟨hmem, hle⟩ := ih hx hrest
        obtain ⟨hfirst, hle⟩ := List.forall_mem_cons.1 hle
        refine ⟨List.cons_subset_cons _ (List.subset_cons_self _ _) hmem, ?_⟩
        exact List.forall_mem_cons.2 ⟨hfirst,
          List.forall_mem_cons.2 ⟨(not_lt.1 hlt).trans hfirst, hle⟩⟩

variable [Scalar α]

theorem greatest?_of_forall_eq (hx : x ∈ xs) (hall : ∀ y ∈ xs, y = x) : greatest? xs = some x := by
  cases xs with
  | nil => simp at hx
  | cons first rest =>
      obtain ⟨rfl, hrest⟩ := List.forall_mem_cons.1 hall
      have hself : larger first first = first := by
        unfold larger
        split_ifs <;> rfl
      rw [greatest?]
      congr 1
      clear hx hall
      induction rest with
      | nil => rfl
      | cons second rest ih =>
          obtain ⟨rfl, hrest⟩ := List.forall_mem_cons.1 hrest
          rw [List.foldl_cons, hself]
          exact ih hrest

/-- Everything that is not `nan` is compared by its rank, and `nan` is what
compares to nothing. -/
structure Ranks (nan : α → Prop) (rank : α → κ) : Prop where
  lt_iff {a b : α} : ¬ nan a → ¬ nan b → (a < b ↔ rank a < rank b)
  le_iff {a b : α} : ¬ nan a → ¬ nan b → (a ≤ b ↔ rank a ≤ rank b)
  beq_iff {a b : α} : ¬ nan a → ¬ nan b → ((a == b) = true ↔ rank a = rank b)
  isNaN_of_nan {a : α} : nan a → isNaN a = true
  not_nan_of_le {a b : α} : a ≤ b → ¬ nan a ∧ ¬ nan b
  not_nan_of_isFinite {a : α} : isFinite a = true → ¬ nan a

namespace Ranks

theorem isNaN_eq (h : Ranks nan rank) (ha : ¬ nan a) : isNaN a = false := by
  rw [isNaN, (h.beq_iff ha ha).2 rfl]
  rfl

theorem larger_eq (h : Ranks nan rank) (ha : ¬ nan a) (hb : ¬ nan b) :
    larger a b = if rank a < rank b then b else a := by
  unfold larger
  simp only [h.isNaN_eq ha, Bool.false_eq_true, or_false, h.lt_iff ha hb]

theorem smaller_eq (h : Ranks nan rank) (ha : ¬ nan a) (hb : ¬ nan b) :
    smaller a b = if rank b < rank a then b else a := by
  unfold smaller
  simp only [h.isNaN_eq ha, Bool.false_eq_true, or_false, h.lt_iff hb ha]

theorem greatest?_spec (h : Ranks nan rank) (hxs : ∀ y ∈ xs, ¬ nan y)
    (hx : greatest? xs = some x) : x ∈ xs ∧ ∀ y ∈ xs, rank y ≤ rank x := by
  cases xs with
  | nil => cases hx
  | cons first rest =>
      cases hx
      obtain ⟨hfirst, hrest⟩ := List.forall_mem_cons.1 hxs
      exact foldl_highest rank (fun _ _ => h.larger_eq) hfirst hrest

theorem least?_spec (h : Ranks nan rank) (hxs : ∀ y ∈ xs, ¬ nan y)
    (hx : least? xs = some x) : x ∈ xs ∧ ∀ y ∈ xs, rank x ≤ rank y := by
  cases xs with
  | nil => cases hx
  | cons first rest =>
      cases hx
      obtain ⟨hfirst, hrest⟩ := List.forall_mem_cons.1 hxs
      exact foldl_highest (fun y => OrderDual.toDual (rank y)) (fun _ _ => h.smaller_eq)
        hfirst hrest

end Ranks

/-! ## Degrees -/

namespace Ranks

variable (h : Ranks nan rank) {a b lower upper : Degree α}

include h

/-- Every degree is a number, because it has been compared. -/
theorem not_nan_degree (a : Degree α) : ¬ nan a.value := (h.not_nan_of_le a.nonneg).2

theorem degree_lt_iff : a < b ↔ rank a.value < rank b.value :=
  h.lt_iff (h.not_nan_degree a) (h.not_nan_degree b)

theorem degree_le_iff : a ≤ b ↔ rank a.value ≤ rank b.value :=
  h.le_iff (h.not_nan_degree a) (h.not_nan_degree b)

theorem degree_le_trans {c : Degree α} (hab : a ≤ b) (hbc : b ≤ c) : a ≤ c :=
  h.degree_le_iff.2 ((h.degree_le_iff.1 hab).trans (h.degree_le_iff.1 hbc))

theorem min_eq (a b : Degree α) : min a b = if rank b.value < rank a.value then b else a :=
  ite_congr (propext h.degree_lt_iff) (fun _ => rfl) fun _ => rfl

theorem max_eq (a b : Degree α) : max a b = if rank a.value < rank b.value then b else a :=
  ite_congr (propext h.degree_lt_iff) (fun _ => rfl) fun _ => rfl

theorem rank_min (a b : Degree α) : rank (min a b).value = min (rank a.value) (rank b.value) := by
  rw [h.min_eq]
  split_ifs with hlt
  · exact (min_eq_right hlt.le).symm
  · exact (min_eq_left (not_lt.1 hlt)).symm

theorem rank_max (a b : Degree α) : rank (max a b).value = max (rank a.value) (rank b.value) := by
  rw [h.max_eq]
  split_ifs with hlt
  · exact (max_eq_right hlt.le).symm
  · exact (max_eq_left (not_lt.1 hlt)).symm

theorem rank_zero_le (a : Degree α) : rank 0 ≤ rank a.value :=
  (h.le_iff (h.not_nan_of_le zero_le_zero).1 (h.not_nan_degree a)).1 a.nonneg

theorem rank_le_one (a : Degree α) : rank a.value ≤ rank 1 :=
  (h.le_iff (h.not_nan_degree a) (h.not_nan_of_le one_le_one).1).1 a.le_one

theorem isZero_iff : a.isZero = true ↔ rank a.value = rank 0 :=
  h.beq_iff (h.not_nan_degree a) (h.not_nan_of_le zero_le_zero).1

theorem isOne_iff : a.isOne = true ↔ rank a.value = rank 1 :=
  h.beq_iff (h.not_nan_degree a) (h.not_nan_of_le one_le_one).1

theorem isZero_min_iff : (min a b).isZero = true ↔ a.isZero = true ∨ b.isZero = true := by
  rw [h.isZero_iff, h.isZero_iff, h.isZero_iff, h.rank_min]
  constructor
  · intro hmin
    rcases min_choice (rank a.value) (rank b.value) with hchoice | hchoice
    · exact .inl (hchoice.symm.trans hmin)
    · exact .inr (hchoice.symm.trans hmin)
  · rintro (hzero | hzero)
    · rw [hzero, min_eq_left (h.rank_zero_le b)]
    · rw [hzero, min_eq_right (h.rank_zero_le a)]

theorem isOne_max_iff : (max a b).isOne = true ↔ a.isOne = true ∨ b.isOne = true := by
  rw [h.isOne_iff, h.isOne_iff, h.isOne_iff, h.rank_max]
  constructor
  · intro hmax
    rcases max_choice (rank a.value) (rank b.value) with hchoice | hchoice
    · exact .inl (hchoice.symm.trans hmax)
    · exact .inr (hchoice.symm.trans hmax)
  · rintro (hone | hone)
    · rw [hone, max_eq_left (h.rank_le_one b)]
    · rw [hone, max_eq_right (h.rank_le_one a)]

theorem degree_beq_iff : (a == b) = true ↔ rank a.value = rank b.value :=
  h.beq_iff (h.not_nan_degree a) (h.not_nan_degree b)

theorem foldl_min_spec (a : Degree α) (l : List (Degree α)) :
    l.foldl min a ∈ a :: l ∧ ∀ b ∈ a :: l, l.foldl min a ≤ b := by
  obtain ⟨hmem, hle⟩ := foldl_highest (fun a : Degree α => OrderDual.toDual (rank a.value)) (x := a)
    (fun a b (_ : ¬ False) (_ : ¬ False) => h.min_eq a b) not_false fun _ (_ : _ ∈ l) => not_false
  exact ⟨hmem, fun b hb => h.degree_le_iff.2 (hle b hb)⟩

theorem foldl_max_spec (a : Degree α) (l : List (Degree α)) :
    l.foldl max a ∈ a :: l ∧ ∀ b ∈ a :: l, b ≤ l.foldl max a := by
  obtain ⟨hmem, hle⟩ := foldl_highest (fun a : Degree α => rank a.value) (x := a)
    (fun a b (_ : ¬ False) (_ : ¬ False) => h.max_eq a b) not_false fun _ (_ : _ ∈ l) => not_false
  exact ⟨hmem, fun b hb => h.degree_le_iff.2 (hle b hb)⟩

/-- A number is only moved to the bounds it is clamped between. -/
theorem value_clamp (x : α) (lower upper : Degree α) : (Degree.clamp x lower upper).value =
    if isNaN x = true ∨ x < lower.value then lower.value
    else if upper.value < x then upper.value else x := by
  unfold Degree.clamp
  split_ifs with hlow hhigh
  · rfl
  · rfl
  · rw [not_or] at hlow
    have hx : ¬ nan x := mt h.isNaN_of_nan hlow.1
    rw [h.lt_iff hx (h.not_nan_degree lower), not_lt] at hlow
    rw [h.lt_iff (h.not_nan_degree upper) hx, not_lt] at hhigh
    have hzero : ¬ nan (0 : α) := (h.not_nan_of_le zero_le_zero).1
    have hone : ¬ nan (1 : α) := (h.not_nan_of_le one_le_one).1
    have hlower := (h.le_iff hzero (h.not_nan_degree lower)).1 lower.nonneg
    have hupper := (h.le_iff (h.not_nan_degree upper) hone).1 upper.le_one
    exact Degree.value_nearest ⟨(h.le_iff hzero hx).2 (hlower.trans hlow.2),
      (h.le_iff hx hone).2 (hhigh.trans hupper)⟩

theorem value_clamp_of_between (hx : ¬ nan x) (hlower : rank lower.value ≤ rank x)
    (hupper : rank x ≤ rank upper.value) : (Degree.clamp x lower upper).value = x := by
  have hlow : ¬ x < lower.value := fun hlt =>
    ((h.lt_iff hx (h.not_nan_degree lower)).1 hlt).not_ge hlower
  have hhigh : ¬ upper.value < x := fun hlt =>
    ((h.lt_iff (h.not_nan_degree upper) hx).1 hlt).not_ge hupper
  rw [h.value_clamp, h.isNaN_eq hx, if_neg (by simpa using hlow), if_neg hhigh]

theorem le_clamp (hbounds : lower ≤ upper) (x : α) : lower ≤ Degree.clamp x lower upper := by
  rw [h.degree_le_iff, h.value_clamp]
  split_ifs with hlow hhigh
  · exact le_rfl
  · exact h.degree_le_iff.1 hbounds
  · rw [not_or] at hlow
    have hx : ¬ nan x := mt h.isNaN_of_nan hlow.1
    exact not_lt.1 fun hlt => hlow.2 ((h.lt_iff hx (h.not_nan_degree lower)).2 hlt)

theorem clamp_le (hbounds : lower ≤ upper) (x : α) : Degree.clamp x lower upper ≤ upper := by
  rw [h.degree_le_iff, h.value_clamp]
  split_ifs with hlow hhigh
  · exact h.degree_le_iff.1 hbounds
  · exact le_rfl
  · have hx : ¬ nan x := mt h.isNaN_of_nan (not_or.1 hlow).1
    exact not_lt.1 fun hlt => hhigh ((h.lt_iff (h.not_nan_degree upper) hx).2 hlt)

theorem clamp_mono {y : α} (hbounds : lower ≤ upper) (hx : ¬ nan x) (hy : ¬ nan y)
    (hxy : rank x ≤ rank y) : Degree.clamp x lower upper ≤ Degree.clamp y lower upper := by
  rcases lt_or_ge (rank x) (rank lower.value) with hlow | hlow
  · have hclamped : (Degree.clamp x lower upper).value = lower.value := by
      rw [h.value_clamp, if_pos (.inr ((h.lt_iff hx (h.not_nan_degree lower)).2 hlow))]
    rw [Degree.ext hclamped]
    exact h.le_clamp hbounds y
  rcases lt_or_ge (rank upper.value) (rank y) with hhigh | hhigh
  · have hclamped : (Degree.clamp y lower upper).value = upper.value := by
      have hlow : ¬ y < lower.value := fun hlt =>
        ((h.degree_le_iff.1 hbounds).trans_lt hhigh).asymm
          ((h.lt_iff hy (h.not_nan_degree lower)).1 hlt)
      rw [h.value_clamp, h.isNaN_eq hy, if_neg (by simpa using hlow),
        if_pos ((h.lt_iff (h.not_nan_degree upper) hy).2 hhigh)]
    rw [Degree.ext hclamped]
    exact h.clamp_le hbounds x
  · rw [h.degree_le_iff, h.value_clamp_of_between hx hlow (hxy.trans hhigh),
      h.value_clamp_of_between hy (hlow.trans hxy) hhigh]
    exact hxy

end Ranks

end FuzzyInference
