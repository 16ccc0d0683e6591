import FuzzyInference.Proofs.Curve.Exact
import Mathlib.Tactic.LinearCombination

/-!
# Finer samples of a curve

In exact arithmetic a place on a straight segment divides the area below it and
the moment of that.  So what lies below a curve does not depend on how finely
the curve is sampled, as long as it is straight between the corners.  Corners of
one place are sampled once, because there is nothing below a vertical segment.
-/

namespace FuzzyInference.Rational

open Scalar Polyline

variable {f : ℚ → ℚ} {p q : Corner ℚ} {rest : List (Corner ℚ)} {x v : ℚ} {xs : List ℚ}

theorem lamina_cons_cons (p q : Corner ℚ) (rest : List (Corner ℚ)) :
    lamina (p :: q :: rest) =
      ⟨segmentArea p q + (lamina (q :: rest)).area,
        segmentMoment p q + (lamina (q :: rest)).moment⟩ := by
  rw [lamina_eq, lamina_eq, consecutive_cons_cons, List.map_cons, List.map_cons, List.sum_cons,
    List.sum_cons]

theorem lamina_cons_congr {rest rest' : List (Corner ℚ)} (p : Corner ℚ)
    (h : lamina (q :: rest) = lamina (q :: rest')) :
    lamina (p :: q :: rest) = lamina (p :: q :: rest') := by
  rw [lamina_cons_cons, lamina_cons_cons, h]

theorem lamina_of_vertical (h : p.x = q.x) : lamina (p :: q :: rest) = lamina (q :: rest) := by
  rw [lamina_cons_cons, segmentArea, segmentMoment, h, sub_self, mul_zero, zero_div, zero_mul,
    zero_div, zero_add, zero_add]

/-! ## Straight segments -/

/-- The third corner is on the line through the first two.  Of two corners at one
place that is every corner there. -/
def OnLine (p q r : Corner ℚ) : Prop := (r.y - p.y) * (q.x - p.x) = (r.x - p.x) * (q.y - p.y)

/-- What lies below a segment is divided by a corner on it. -/
theorem lamina_of_onLine {r : Corner ℚ} (h : OnLine p q r) (rest : List (Corner ℚ)) :
    lamina (p :: r :: q :: rest) = lamina (p :: q :: rest) := by
  unfold OnLine at h
  have harea : segmentArea p r + segmentArea r q = segmentArea p q := by
    simp only [segmentArea, two_eq]
    linear_combination h / 2
  have hmoment : segmentMoment p r + segmentMoment r q = segmentMoment p q := by
    simp only [segmentMoment]
    linear_combination (p.x + q.x + r.x) / 6 * h
  rw [lamina_cons_cons, lamina_cons_cons, lamina_cons_cons, ← harea, ← hmoment, add_assoc,
    add_assoc]

structure Straight (f : ℚ → ℚ) (p q : Corner ℚ) : Prop where
  lt : p.x < q.x
  start : f p.x = p.y
  stop : f q.x = q.y
  between : ∀ x, p.x < x → x < q.x → f x = p.y + (x - p.x) * (q.y - p.y) / (q.x - p.x)

namespace Straight

variable (h : Straight f p q) (hpv : p.x < v) (hvq : v < q.x)

include h hpv hvq

theorem remainder : Straight f ⟨v, f v⟩ q where
  lt := hvq
  start := rfl
  stop := h.stop
  between x hvx hxq := by
    have hwidth : q.x - p.x ≠ 0 := (sub_pos.2 h.lt).ne'
    have hleft : q.x - v ≠ 0 := (sub_pos.2 hvq).ne'
    rw [h.between x (hpv.trans hvx) hxq, h.between v hpv hvq]
    field_simp
    ring

theorem lamina_divided (rest : List (Corner ℚ)) :
    lamina (p :: ⟨v, f v⟩ :: q :: rest) = lamina (p :: q :: rest) := by
  have hwidth : q.x - p.x ≠ 0 := (sub_pos.2 h.lt).ne'
  apply lamina_of_onLine
  rw [OnLine, h.between v hpv hvq, add_sub_cancel_left, div_mul_cancel₀ _ hwidth]

end Straight

/-! ## Samples -/

def sampledAt (f : ℚ → ℚ) (xs : List ℚ) : List (Corner ℚ) := xs.map fun x => ⟨x, f x⟩

/-- From the corner `p` on, the places sample the function wherever the corners
are, and between them only where it is straight. -/
structure Refines (f : ℚ → ℚ) (p : Corner ℚ) (rest : List (Corner ℚ)) (xs : List ℚ) : Prop where
  segments : ∀ s ∈ consecutive (p :: rest), s.1.x = s.2.x ∨ Straight f s.1 s.2
  ascending : (p.x :: xs).Pairwise (· < ·)
  corners : ∀ q ∈ rest, q.x ∈ p.x :: xs
  within : ∀ x ∈ xs, ∃ q ∈ rest, x ≤ q.x

namespace Refines

theorem le_rest (h : Refines f p (q :: rest) xs) : ∀ r ∈ q :: rest, q.x ≤ r.x := by
  have : IsTrans (Corner ℚ) fun p q => p.x ≤ q.x := ⟨fun _ _ _ => le_trans⟩
  have : Std.Refl fun p q : Corner ℚ => p.x ≤ q.x := ⟨fun _ => le_rfl⟩
  have hpairwise : (q :: rest).Pairwise fun p q => p.x ≤ q.x := pairwise_iff_consecutive.2
    fun s hs => (h.segments s (List.mem_cons_of_mem _ hs)).elim le_of_eq fun hs => hs.lt.le
  exact fun r hr => hpairwise.rel_head hr

theorem vertical (h : Refines f p (q :: rest) xs) (hpq : p.x = q.x) : Refines f q rest xs where
  segments s hs := h.segments s (List.mem_cons_of_mem _ hs)
  ascending := hpq ▸ h.ascending
  corners r hr := hpq ▸ h.corners r (List.mem_cons_of_mem _ hr)
  within x hx := by
    obtain ⟨r, hr, hle⟩ := h.within x hx
    rcases List.mem_cons.1 hr with rfl | hr
    · exact absurd ((List.pairwise_cons.1 h.ascending).1 x hx) (hpq ▸ hle).not_gt
    · exact ⟨r, hr, hle⟩

theorem reached (h : Refines f p (q :: rest) (q.x :: xs)) (hpq : p.x < q.x) :
    Refines f q rest xs where
  segments s hs := h.segments s (List.mem_cons_of_mem _ hs)
  ascending := (List.pairwise_cons.1 h.ascending).2
  corners r hr := by
    rcases List.mem_cons.1 (h.corners r (List.mem_cons_of_mem _ hr)) with heq | hmem
    · exact absurd (h.le_rest r (List.mem_cons_of_mem _ hr)) (heq ▸ hpq).not_ge
    · exact hmem
  within x hx := by
    obtain ⟨r, hr, hle⟩ := h.within x (List.mem_cons_of_mem _ hx)
    obtain ⟨-, hascending⟩ := List.pairwise_cons.1 h.ascending
    rcases List.mem_cons.1 hr with rfl | hr
    · exact absurd ((List.pairwise_cons.1 hascending).1 x hx) hle.not_gt
    · exact ⟨r, hr, hle⟩

theorem divided (h : Refines f p (q :: rest) (v :: xs)) (hs : Straight f p q) (hvq : v < q.x) :
    Refines f ⟨v, f v⟩ (q :: rest) xs where
  segments s hmem := by
    obtain ⟨hfirst, -⟩ := List.pairwise_cons.1 h.ascending
    rcases List.mem_cons.1 hmem with rfl | hlater
    · exact .inr (hs.remainder (hfirst v List.mem_cons_self) hvq)
    · exact h.segments s (List.mem_cons_of_mem _ hlater)
  ascending := (List.pairwise_cons.1 h.ascending).2
  corners r hr := by
    rcases List.mem_cons.1 (h.corners r hr) with heq | hmem
    · exact absurd (h.le_rest r hr) (heq ▸ hs.lt).not_ge
    · exact hmem
  within x hx := h.within x (List.mem_cons_of_mem _ hx)

/-- What lies below a curve lies below its samples. -/
theorem lamina_sampledAt (h : Refines f p rest xs) :
    lamina (sampledAt f (p.x :: xs)) = lamina (p :: rest) := by
  induction rest generalizing p xs with
  | nil =>
      cases xs with
      | nil => rfl
      | cons x xs =>
          obtain ⟨q, hq, -⟩ := h.within x List.mem_cons_self
          exact absurd hq List.not_mem_nil
  | cons q rest ih =>
      have hend : p.x = q.x ∨ Straight f p q := h.segments (p, q) List.mem_cons_self
      rcases hend with hpq | hs
      · rw [lamina_of_vertical hpq, hpq]
        exact ih (h.vertical hpq)
      · -- the samples are taken one by one until they reach the next corner
        induction xs generalizing p with
        | nil => exact absurd (List.mem_singleton.1 (h.corners q List.mem_cons_self)) hs.lt.ne'
        | cons x xs ihx =>
            obtain ⟨hfirst, hascending⟩ := List.pairwise_cons.1 h.ascending
            have hpx : p.x < x := hfirst x List.mem_cons_self
            have hstart : (⟨p.x, f p.x⟩ : Corner ℚ) = p := congrArg (Corner.mk p.x) hs.start
            rw [sampledAt, List.map_cons, List.map_cons, hstart]
            rcases lt_trichotomy x q.x with hlt | rfl | hgt
            · rw [← hs.lamina_divided hpx hlt]
              exact lamina_cons_congr p (ihx (h.divided hs hlt) (hs.remainder hpx hlt))
            · have hstop : (⟨q.x, f q.x⟩ : Corner ℚ) = q := congrArg (Corner.mk q.x) hs.stop
              have hrest := ih (h.reached hpx)
              rw [sampledAt, List.map_cons, hstop] at hrest
              rw [hstop]
              exact lamina_cons_congr p hrest
            · -- the next corner would have no sample
              rcases List.mem_cons.1 (h.corners q List.mem_cons_self) with heq | hmem
              · exact absurd heq hs.lt.ne'
              · rcases List.mem_cons.1 hmem with heq | hmem
                · exact absurd heq hgt.ne
                · exact absurd ((List.pairwise_cons.1 hascending).1 _ hmem) hgt.not_gt

end Refines

end FuzzyInference.Rational
