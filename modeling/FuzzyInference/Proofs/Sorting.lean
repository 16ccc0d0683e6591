import FuzzyInference.Proofs.Rank
import Mathlib.Data.List.Sort

/-!
# Sorting numbers

Sorting and keeping one of each run of equal neighbours makes a strictly
ascending list of the same numbers.  Only ranks are compared, and signs where
those are equal, so it does so for rounded and for exact numbers.
-/

namespace FuzzyInference

open Scalar

variable {α κ : Type} [Scalar α] [LinearOrder κ] {nan : α → Prop} {rank : α → κ} {a b x : α}
  {xs ys : List α}

/-! ## What remains -/

theorem subset_collapseRuns_go (x : α) (xs : List α) : collapseRuns.go x xs ⊆ x :: xs := by
  induction xs generalizing x with
  | nil => exact List.Subset.refl _
  | cons y xs ih =>
      rw [collapseRuns.go]
      split_ifs
      · exact List.Subset.trans (ih x) (List.cons_subset_cons _ (List.subset_cons_self _ _))
      · exact List.cons_subset_cons _ (ih y)

theorem subset_sortedDistinct (xs : List α) : sortedDistinct xs ⊆ xs := by
  unfold sortedDistinct
  intro x hx
  have hsubset : collapseRuns (xs.mergeSort sortsBefore) ⊆ xs.mergeSort sortsBefore := by
    cases xs.mergeSort sortsBefore with
    | nil => exact List.Subset.refl _
    | cons y ys => exact subset_collapseRuns_go y ys
  exact List.mem_mergeSort.1 (hsubset hx)

/-! ## The order of sorting -/

/-- The order by rank, with a negative number before another of its rank.  Between
numbers it is the one that is sorted by; this one takes in what is no number. -/
private def ranksBefore (rank : α → κ) (a b : α) : Bool :=
  decide (rank a < rank b) ||
    (decide (rank a = rank b) && (isNegative a || !isNegative b))

private theorem ranksBefore_iff : ranksBefore rank a b = true ↔ rank a < rank b ∨
    (rank a = rank b ∧ (isNegative a = true ∨ isNegative b = false)) := by
  simp [ranksBefore]

private theorem ranksBefore_trans (a b c : α) (hab : ranksBefore rank a b = true)
    (hbc : ranksBefore rank b c = true) : ranksBefore rank a c = true := by
  rw [ranksBefore_iff] at hab hbc ⊢
  rcases hab with hab | ⟨hab, hsign⟩
  · rcases hbc with hbc | ⟨hbc, -⟩
    · exact .inl (hab.trans hbc)
    · exact .inl (hbc ▸ hab)
  · rcases hbc with hbc | ⟨hbc, hsign'⟩
    · exact .inl (hab ▸ hbc)
    · refine .inr ⟨hab.trans hbc, ?_⟩
      rcases hsign with hsign | hsign
      · exact .inl hsign
      · rw [hsign] at hsign'
        exact .inr (hsign'.resolve_left Bool.false_ne_true)

private theorem ranksBefore_total (a b : α) :
    (ranksBefore rank a b || ranksBefore rank b a) = true := by
  rw [Bool.or_eq_true, ranksBefore_iff, ranksBefore_iff]
  rcases lt_trichotomy (rank a) (rank b) with h | h | h
  · exact .inl (.inl h)
  · cases hsign : isNegative a with
    | true => exact .inl (.inr ⟨h, .inl rfl⟩)
    | false => exact .inr (.inr ⟨h.symm, .inr rfl⟩)
  · exact .inr (.inl h)

namespace Ranks

variable (h : Ranks nan rank)

include h

private theorem sortsBefore_eq (ha : ¬ nan a) (hb : ¬ nan b) :
    sortsBefore a b = ranksBefore rank a b := by
  have hlt : decide (a < b) = decide (rank a < rank b) := by
    rw [decide_eq_decide]
    exact h.lt_iff ha hb
  have heq : (a == b) = decide (rank a = rank b) := by
    rw [Bool.eq_iff_iff, decide_eq_true_iff]
    exact h.beq_iff ha hb
  rw [sortsBefore, ranksBefore, hlt, heq]

private theorem pairwise_mergeSort (hxs : ∀ x ∈ xs, ¬ nan x) :
    (xs.mergeSort sortsBefore).Pairwise fun a b => rank a ≤ rank b := by
  have hrank : xs.mergeSort sortsBefore = xs.mergeSort (ranksBefore rank) := by
    have hmap := List.map_mergeSort (f := id) fun a ha b hb =>
      h.sortsBefore_eq (hxs a ha) (hxs b hb)
    simpa using hmap
  rw [hrank]
  apply (List.pairwise_mergeSort ranksBefore_trans ranksBefore_total xs).imp
  intro a b hab
  rcases ranksBefore_iff.1 hab with hlt | ⟨heq, -⟩
  · exact hlt.le
  · exact heq.le

/-! ## Equal neighbours -/

private theorem map_collapseRuns_go (hx : ¬ nan x) (hxs : ∀ y ∈ xs, ¬ nan y)
    (hsorted : (x :: xs).Pairwise fun a b => rank a ≤ rank b) :
    ((collapseRuns.go x xs).map rank).Pairwise (· < ·) ∧
      ∀ k, k ∈ (collapseRuns.go x xs).map rank ↔ k ∈ (x :: xs).map rank := by
  induction xs generalizing x with
  | nil => exact ⟨List.pairwise_singleton _ _, fun k => Iff.rfl⟩
  | cons y xs ih =>
      obtain ⟨hy, hrest⟩ := List.forall_mem_cons.1 hxs
      obtain ⟨hfirst, hpairs⟩ := List.pairwise_cons.1 hsorted
      have hle : rank x ≤ rank y := hfirst y List.mem_cons_self
      rw [collapseRuns.go]
      -- an equal neighbour is of the same run, and any other starts the next one
      split_ifs with heq
      · have hrank : rank y = rank x := (h.beq_iff hy hx).1 heq
        have hskip : (x :: xs).Pairwise fun a b => rank a ≤ rank b :=
          List.pairwise_cons.2 ⟨fun z hz => hfirst z (List.mem_cons_of_mem _ hz),
            (List.pairwise_cons.1 hpairs).2⟩
        obtain ⟨hascending, hmem⟩ := ih hx hrest hskip
        refine ⟨hascending, fun k => ?_⟩
        rw [hmem, List.map_cons, List.map_cons, List.map_cons, hrank]
        simp
      · have hlt : rank x < rank y :=
          lt_of_le_of_ne hle fun hrank => heq ((h.beq_iff hy hx).2 hrank.symm)
        obtain ⟨hascending, hmem⟩ := ih hy hrest hpairs
        constructor
        · rw [List.map_cons, List.pairwise_cons]
          refine ⟨fun k hk => ?_, hascending⟩
          obtain ⟨z, hz, rfl⟩ := List.mem_map.1 ((hmem k).1 hk)
          rcases List.mem_cons.1 hz with rfl | hz
          · exact hlt
          · exact hlt.trans_le ((List.pairwise_cons.1 hpairs).1 z hz)
        · intro k
          rw [List.map_cons, List.mem_cons, hmem, List.map_cons (l := y :: xs), List.mem_cons]

/-- The ranks of the distinct numbers of a list ascend, and are those of the
list. -/
theorem map_sortedDistinct (hxs : ∀ x ∈ xs, ¬ nan x) :
    ((sortedDistinct xs).map rank).Pairwise (· < ·) ∧
      ∀ k, k ∈ (sortedDistinct xs).map rank ↔ k ∈ xs.map rank := by
  have hsorted := h.pairwise_mergeSort hxs
  have hmem (k : κ) : k ∈ (xs.mergeSort sortsBefore).map rank ↔ k ∈ xs.map rank := by
    simp only [List.mem_map, List.mem_mergeSort]
  have hnumbers : ∀ x ∈ xs.mergeSort sortsBefore, ¬ nan x :=
    fun x hx => hxs x (List.mem_mergeSort.1 hx)
  unfold sortedDistinct
  generalize xs.mergeSort sortsBefore = sorted at hsorted hmem hnumbers ⊢
  cases sorted with
  | nil => exact ⟨List.Pairwise.nil, hmem⟩
  | cons x sorted =>
      obtain ⟨hx, hrest⟩ := List.forall_mem_cons.1 hnumbers
      obtain ⟨hascending, hgo⟩ := h.map_collapseRuns_go hx hrest hsorted
      exact ⟨hascending, fun k => (hgo k).trans (hmem k)⟩

theorem pairwise_sortedDistinct (hxs : ∀ x ∈ xs, ¬ nan x) :
    (sortedDistinct xs).Pairwise (· < ·) := by
  have hnumbers : ∀ x ∈ sortedDistinct xs, ¬ nan x :=
    fun x hx => hxs x (subset_sortedDistinct xs hx)
  apply (List.pairwise_map.1 (h.map_sortedDistinct hxs).1).imp_of_mem
  intro a b ha hb hlt
  exact (h.lt_iff (hnumbers a ha) (hnumbers b hb)).2 hlt

/-- Sorting depends on which ranks there are, in whatever order and however
often. -/
theorem map_sortedDistinct_congr (hxs : ∀ x ∈ xs, ¬ nan x) (hys : ∀ y ∈ ys, ¬ nan y)
    (hmem : ∀ k, k ∈ xs.map rank ↔ k ∈ ys.map rank) :
    (sortedDistinct xs).map rank = (sortedDistinct ys).map rank := by
  obtain ⟨hx, hxmem⟩ := h.map_sortedDistinct hxs
  obtain ⟨hy, hymem⟩ := h.map_sortedDistinct hys
  apply hx.eq_of_mem_iff hy
  intro k
  rw [hxmem, hymem, hmem]

end Ranks

end FuzzyInference
