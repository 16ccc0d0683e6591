import FuzzyInference.Proofs.Sorting
import FuzzyInference.Scalar.Rational
import Mathlib.Algebra.BigOperators.Ring.List
import Mathlib.Algebra.Order.BigOperators.Group.List
import Mathlib.Algebra.Order.Field.Rat
import Mathlib.Tactic.Linarith
import Mathlib.Tactic.NormNum
import Mathlib.Tactic.Ring

/-!
# Order and sums of exact numbers

On rational numbers the operations that make room for rounding are the plain
ones: the larger of two numbers is their maximum, the extremes of a list are
its greatest and its least element, and sorting makes the strictly ascending
list of the same numbers.
-/

namespace FuzzyInference.Rational

open Scalar

variable {a b x : ℚ} {xs ys : List ℚ}

theorem ranks : Ranks (fun _ : ℚ => False) id where
  lt_iff _ _ := Iff.rfl
  le_iff _ _ := Iff.rfl
  beq_iff _ _ := beq_iff_eq
  isNaN_of_nan := False.elim
  not_nan_of_le _ := ⟨not_false, not_false⟩
  not_nan_of_isFinite _ := not_false

/-! ## Single numbers -/

@[simp] theorem isNaN_eq (a : ℚ) : isNaN a = false := by
  simp [isNaN]

@[simp] theorem two_eq : (two : ℚ) = 2 := by
  norm_num [two]

@[simp] theorem three_eq : (three : ℚ) = 3 := by
  norm_num [three]

theorem larger_eq (a b : ℚ) : larger a b = max a b := by
  unfold larger
  rw [isNaN_eq]
  simp only [Bool.false_eq_true, or_false]
  split_ifs with hlt
  · exact (max_eq_right hlt.le).symm
  · exact (max_eq_left (not_lt.1 hlt)).symm

theorem smaller_eq (a b : ℚ) : smaller a b = min a b := by
  unfold smaller
  rw [isNaN_eq]
  simp only [Bool.false_eq_true, or_false]
  split_ifs with hlt
  · exact (min_eq_right hlt.le).symm
  · exact (min_eq_left (not_lt.1 hlt)).symm

theorem magnitude_eq (a : ℚ) : magnitude a = |a| := by
  unfold magnitude
  split_ifs with hneg
  · exact (abs_of_neg hneg).symm
  · exact (abs_of_nonneg (not_lt.1 hneg)).symm

theorem partway_mem_Icc {low high part : ℚ} (ha : a ∈ Set.Icc low high) (hb : b ∈ Set.Icc low high)
    (hpart0 : 0 ≤ part) (hpart1 : part ≤ 1) : a + (b - a) * part ∈ Set.Icc low high := by
  have hrest : 0 ≤ 1 - part := sub_nonneg.2 hpart1
  have hsplit : a + (b - a) * part = (1 - part) * a + part * b := by ring
  have hwhole (c : ℚ) : (1 - part) * c + part * c = c := by ring
  rw [hsplit, Set.mem_Icc]
  constructor
  · calc low = (1 - part) * low + part * low := (hwhole low).symm
      _ ≤ (1 - part) * a + part * b :=
        add_le_add (mul_le_mul_of_nonneg_left ha.1 hrest) (mul_le_mul_of_nonneg_left hb.1 hpart0)
  · calc (1 - part) * a + part * b ≤ (1 - part) * high + part * high :=
        add_le_add (mul_le_mul_of_nonneg_left ha.2 hrest) (mul_le_mul_of_nonneg_left hb.2 hpart0)
      _ = high := hwhole high

/-! ## Lists -/

theorem greatest?_eq (xs : List ℚ) : greatest? xs = xs.max? := by
  cases xs with
  | nil => rfl
  | cons x xs =>
      rw [greatest?, List.max?_cons', funext₂ larger_eq]

theorem least?_eq (xs : List ℚ) : least? xs = xs.min? := by
  cases xs with
  | nil => rfl
  | cons x xs =>
      rw [least?, List.min?_cons', funext₂ smaller_eq]

theorem greatest?_eq_some_iff : greatest? xs = some x ↔ x ∈ xs ∧ ∀ y ∈ xs, y ≤ x := by
  rw [greatest?_eq, List.max?_eq_some_iff]

theorem least?_eq_some_iff : least? xs = some x ↔ x ∈ xs ∧ ∀ y ∈ xs, x ≤ y := by
  rw [least?_eq, List.min?_eq_some_iff]

/-! ## Sums and means -/

theorem sum_eq (xs : List ℚ) : sum xs = xs.sum := by
  rw [sum, List.sum_eq_foldl, neg_zero]

theorem foldl_add_eq {β : Type} (f : β → ℚ) (l : List β) :
    l.foldl (fun total b => total + f b) 0 = (l.map f).sum := by
  rw [List.sum_eq_foldl, List.foldl_map]

theorem div_mem_Icc {low high moment weight : ℚ} (hpos : 0 < weight)
    (hlow : low * weight ≤ moment) (hhigh : moment ≤ high * weight) :
    moment / weight ∈ Set.Icc low high :=
  ⟨(le_div_iff₀ hpos).2 hlow, (div_le_iff₀ hpos).2 hhigh⟩

theorem mean_mem_Icc {low high : ℚ} (hne : xs ≠ []) (h : ∀ x ∈ xs, x ∈ Set.Icc low high) :
    xs.sum / xs.length ∈ Set.Icc low high := by
  have hlow := List.card_nsmul_le_sum xs low fun x hx => (h x hx).1
  have hhigh := List.sum_le_card_nsmul xs high fun x hx => (h x hx).2
  rw [nsmul_eq_mul, mul_comm] at hlow hhigh
  exact div_mem_Icc (Nat.cast_pos.2 (List.length_pos_of_ne_nil hne)) hlow hhigh

/-! ## Sorting -/

theorem pairwise_sortedDistinct (xs : List ℚ) : (sortedDistinct xs).Pairwise (· < ·) :=
  ranks.pairwise_sortedDistinct fun _ _ => not_false

theorem mem_sortedDistinct : x ∈ sortedDistinct xs ↔ x ∈ xs := by
  have hmem := (ranks.map_sortedDistinct fun y (_ : y ∈ xs) => not_false).2 x
  rwa [List.map_id, List.map_id] at hmem

theorem sortedDistinct_eq_of_mem_iff (hys : ys.Pairwise (· < ·)) (h : ∀ x, x ∈ ys ↔ x ∈ xs) :
    sortedDistinct xs = ys :=
  (pairwise_sortedDistinct xs).eq_of_mem_iff hys fun x => mem_sortedDistinct.trans (h x).symm

end FuzzyInference.Rational
