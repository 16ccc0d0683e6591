import FuzzyInference.Crisp.Reading
import FuzzyInference.Proofs.Rank

/-!
# Where a curve is highest

Heights are compared by a rank, which rounded and exact numbers have each of
their own.  The highest positions of a curve are those of the corners that no
other overtops in rank, and every curve has some.
-/

namespace FuzzyInference.Polyline

open Scalar

variable {α κ : Type} [Scalar α] [LinearOrder κ] {rank : α → κ}

/-- Among these numbers the greatest has the greatest rank, and equal numbers
are those of one rank. -/
structure RankedBy (rank : α → κ) (ys : List α) : Prop where
  greatest : ∀ top, greatest? ys = some top → top ∈ ys ∧ ∀ y ∈ ys, rank y ≤ rank top
  tie : ∀ y ∈ ys, ∀ z ∈ ys, (y == z) = true ↔ rank y = rank z

theorem rankedBy {nan : α → Prop} (h : Ranks nan rank) {ys : List α} (hys : ∀ y ∈ ys, ¬ nan y) :
    RankedBy rank ys :=
  ⟨fun _ => h.greatest?_spec hys, fun y hy z hz => h.beq_iff (hys y hy) (hys z hz)⟩

namespace RankedBy

variable {curve : List (Corner α)} {x : α}

theorem exists_highest (h : RankedBy rank (curve.map Corner.y)) (hne : curve ≠ []) :
    ∃ top ∈ curve, greatest? (curve.map Corner.y) = some top.y ∧
      ∀ q ∈ curve, rank q.y ≤ rank top.y := by
  have hne' : curve.map Corner.y ≠ [] := mt List.map_eq_nil_iff.1 hne
  obtain ⟨highest, hhighest⟩ := exists_greatest? hne'
  obtain ⟨hmem, hle⟩ := h.greatest highest hhighest
  obtain ⟨top, htop, rfl⟩ := List.mem_map.1 hmem
  exact ⟨top, htop, hhighest, List.forall_mem_map.1 hle⟩

theorem mem_highestPositions_iff (h : RankedBy rank (curve.map Corner.y)) :
    x ∈ highestPositions curve ↔ ∃ p ∈ curve, (∀ q ∈ curve, rank q.y ≤ rank p.y) ∧ p.x = x := by
  by_cases hnil : curve = []
  · simp [hnil, highestPositions, greatest?]
  obtain ⟨top, htop, hhighest, hle⟩ := h.exists_highest hnil
  have hiff (p : Corner α) (hp : p ∈ curve) :
      (p.y == top.y) = true ↔ ∀ q ∈ curve, rank q.y ≤ rank p.y := by
    rw [h.tie _ (List.mem_map_of_mem hp) _ (List.mem_map_of_mem htop)]
    constructor
    · exact fun heq q hq => heq ▸ hle q hq
    · exact fun hall => le_antisymm (hle p hp) (hall top htop)
  simp only [highestPositions, hhighest, List.mem_map, List.mem_filter]
  constructor
  · rintro ⟨p, ⟨hp, heq⟩, hx⟩
    exact ⟨p, hp, (hiff p hp).1 heq, hx⟩
  · rintro ⟨p, hp, hall, hx⟩
    exact ⟨p, ⟨hp, (hiff p hp).2 hall⟩, hx⟩

theorem highestPositions_ne_nil (h : RankedBy rank (curve.map Corner.y)) (hne : curve ≠ []) :
    highestPositions curve ≠ [] := by
  obtain ⟨top, htop, -, hle⟩ := h.exists_highest hne
  exact List.ne_nil_of_mem (h.mem_highestPositions_iff.2 ⟨top, htop, hle, rfl⟩)

end RankedBy

end FuzzyInference.Polyline
