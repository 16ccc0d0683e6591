import FuzzyInference.Proofs.Binary.Same
import FuzzyInference.Proofs.Sorting

/-!
# Lists of floating-point numbers

Where everything in a list is a number, its greatest element is no less than
any of them, and likewise its least.  So two lists have the same extremes if
neither of them holds a number beyond those of the other, and the same distinct
numbers if neither holds one that is not in the other.  Which zero stands for
zero depends on the list, and nothing else does.
-/

namespace FuzzyInference.Binary

open Scalar

variable {a b x : Float} {xs ys : List Float}

theorem ranks : Ranks IsNaN level where
  lt_iff := lt_iff_level
  le_iff := le_iff_level
  beq_iff := beq_iff_level
  isNaN_of_nan := isNaN_eq_true_iff.2
  not_nan_of_le := not_isNaN_of_le
  not_nan_of_isFinite ha := by
    obtain ⟨q, hq⟩ := isFinite_iff.1 ha
    exact hq.not_isNaN

/-- What ranks highest is the same of two lists if nothing in either ranks above
the other. -/
private theorem pick_same {κ : Type} [LinearOrder κ] (rank : Float → κ)
    {op : Float → Float → Float} {pick : List Float → Option Float}
    (hnil : pick [] = none) (hcons : ∀ x xs, pick (x :: xs) = some (xs.foldl op x))
    (hop : ∀ a b, ¬ IsNaN a → ¬ IsNaN b → op a b = if rank a < rank b then b else a)
    (hrank : ∀ a b, rank a = rank b → level a = level b)
    (hxs : ∀ x ∈ xs, ¬ IsNaN x) (hys : ∀ y ∈ ys, ¬ IsNaN y)
    (hxy : ∀ x ∈ xs, ∃ y ∈ ys, rank x ≤ rank y) (hyx : ∀ y ∈ ys, ∃ x ∈ xs, rank y ≤ rank x) :
    Option.Rel Same (pick xs) (pick ys) := by
  cases xs with
  | nil =>
      cases ys with
      | nil =>
          rw [hnil]
          exact .none
      | cons y ys => simpa using hyx y List.mem_cons_self
  | cons x xs =>
      cases ys with
      | nil => simpa using hxy x List.mem_cons_self
      | cons y ys =>
          have hall := List.forall_mem_cons.1 hxs
          have hall' := List.forall_mem_cons.1 hys
          obtain ⟨hx, hxle⟩ := foldl_highest rank hop hall.1 hall.2
          obtain ⟨hy, hyle⟩ := foldl_highest rank hop hall'.1 hall'.2
          obtain ⟨b, hb, hxb⟩ := hxy _ hx
          obtain ⟨a, ha, hya⟩ := hyx _ hy
          have heq := le_antisymm (hxb.trans (hyle b hb)) (hya.trans (hxle a ha))
          rw [hcons, hcons]
          exact .some ((Same.iff_level (hxs _ hx) (hys _ hy)).2 (hrank _ _ heq))

theorem greatest?_same_of_le (hxs : ∀ x ∈ xs, ¬ IsNaN x) (hys : ∀ y ∈ ys, ¬ IsNaN y)
    (hxy : ∀ x ∈ xs, ∃ y ∈ ys, level x ≤ level y)
    (hyx : ∀ y ∈ ys, ∃ x ∈ xs, level y ≤ level x) :
    Option.Rel Same (greatest? xs) (greatest? ys) :=
  pick_same level rfl (fun _ _ => rfl) (fun _ _ => ranks.larger_eq) (fun _ _ => id) hxs hys hxy hyx

private theorem exists_level_eq (h : ∀ k, k ∈ xs.map level ↔ k ∈ ys.map level) (hx : x ∈ xs) :
    ∃ y ∈ ys, level x = level y := by
  obtain ⟨y, hy, heq⟩ := List.mem_map.1 ((h _).1 (List.mem_map_of_mem hx))
  exact ⟨y, hy, heq.symm⟩

theorem extremes_same (hxs : ∀ x ∈ xs, ¬ IsNaN x) (hys : ∀ y ∈ ys, ¬ IsNaN y)
    (h : ∀ k, k ∈ xs.map level ↔ k ∈ ys.map level) :
    Option.Rel Same (least? xs) (least? ys) ∧ Option.Rel Same (greatest? xs) (greatest? ys) := by
  have hxy : ∀ x ∈ xs, ∃ y ∈ ys, level x = level y := fun x => exists_level_eq h
  have hyx : ∀ y ∈ ys, ∃ x ∈ xs, level y = level x := fun y => exists_level_eq fun k => (h k).symm
  constructor
  · apply pick_same (fun y => OrderDual.toDual (level y)) rfl (fun _ _ => rfl)
      (fun _ _ => ranks.smaller_eq) (fun _ _ => OrderDual.toDual_inj.1) hxs hys
    · exact fun x hx => (hxy x hx).imp fun y hy => ⟨hy.1, hy.2.symm.le⟩
    · exact fun y hy => (hyx y hy).imp fun x hx => ⟨hx.1, hx.2.symm.le⟩
  · apply greatest?_same_of_le hxs hys
    · exact fun x hx => (hxy x hx).imp fun y hy => ⟨hy.1, hy.2.le⟩
    · exact fun y hy => (hyx y hy).imp fun x hx => ⟨hx.1, hx.2.le⟩

theorem sortedDistinct_same (hxs : ∀ x ∈ xs, ¬ IsNaN x) (hys : ∀ y ∈ ys, ¬ IsNaN y)
    (h : ∀ k, k ∈ xs.map level ↔ k ∈ ys.map level) :
    List.Forall₂ Same (sortedDistinct xs) (sortedDistinct ys) := by
  have hlevels := ranks.map_sortedDistinct_congr hxs hys h
  have hall : List.Forall₂ (fun a b => level a = level b) (sortedDistinct xs)
      (sortedDistinct ys) := by
    rw [← List.forall₂_eq_eq_eq, List.forall₂_map_left_iff, List.forall₂_map_right_iff] at hlevels
    exact hlevels
  rw [List.forall₂_iff_zip] at hall ⊢
  refine ⟨hall.1, fun {a b} hab => ?_⟩
  have hmem := List.of_mem_zip hab
  rw [Same.iff_level (hxs a (subset_sortedDistinct xs hmem.1))
    (hys b (subset_sortedDistinct ys hmem.2))]
  exact hall.2 hab

theorem greatest?_spec (hxs : ∀ y ∈ xs, ¬ IsNaN y) (h : greatest? xs = some x) :
    x ∈ xs ∧ ∀ y ∈ xs, level y ≤ level x :=
  ranks.greatest?_spec hxs h

theorem least?_spec (hxs : ∀ y ∈ xs, ¬ IsNaN y) (h : least? xs = some x) :
    x ∈ xs ∧ ∀ y ∈ xs, level x ≤ level y :=
  ranks.least?_spec hxs h

end FuzzyInference.Binary
