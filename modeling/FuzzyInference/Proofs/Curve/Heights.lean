import FuzzyInference.Curve.Polyline
import FuzzyInference.Proofs.Rank
import Mathlib.Data.List.Pairwise

/-!
# The height of a polyline

The height at a place is found by a scan of the segments that stops at the first
one beyond it.  It is that of the nearer end outside the corners, the greatest
of the corners at a place where there are some, and on the way from one corner
to the next everywhere else.
-/

namespace FuzzyInference

/-! ## Neighbours -/

section Neighbours

variable {β : Type} {l : List β} {s : β × β} {R : β → β → Prop}

theorem mem_of_mem_consecutive (hs : s ∈ consecutive l) : s.1 ∈ l ∧ s.2 ∈ l :=
  ⟨(List.of_mem_zip hs).1, List.mem_of_mem_tail (List.of_mem_zip hs).2⟩

theorem consecutive_singleton (a : β) : consecutive [a] = [] := rfl

theorem consecutive_cons_cons (a b : β) (l : List β) :
    consecutive (a :: b :: l) = (a, b) :: consecutive (b :: l) := rfl

theorem mem_consecutive_append (before : List β) (a b : β) :
    (a, b) ∈ consecutive (before ++ [a, b]) := by
  induction before with
  | nil => exact List.mem_cons_self
  | cons c before ih =>
      cases before with
      | nil => exact List.mem_cons_of_mem _ ih
      | cons d before => exact List.mem_cons_of_mem _ ih

theorem consecutive_map {γ : Type} (f : β → γ) (l : List β) :
    consecutive (l.map f) = (consecutive l).map (Prod.map f f) := by
  rw [consecutive, consecutive, ← List.map_tail, List.zip_map]

theorem pairwise_iff_consecutive [IsTrans β R] :
    l.Pairwise R ↔ ∀ s ∈ consecutive l, R s.1 s.2 := by
  rw [← List.isChain_iff_pairwise]
  induction l with
  | nil => simp [consecutive]
  | cons a l ih =>
      cases l with
      | nil => simp [consecutive]
      | cons b l => rw [List.isChain_cons_cons, ih, consecutive_cons_cons, List.forall_mem_cons]

/-- Something of a list comes before two neighbours or after them. -/
theorem rel_of_mem_consecutive [Std.Refl R] (h : l.Pairwise R) (hs : s ∈ consecutive l) {a : β}
    (ha : a ∈ l) : R a s.1 ∨ R s.2 a := by
  induction l with
  | nil => simp at ha
  | cons b l ih =>
      cases l with
      | nil => simp [consecutive] at hs
      | cons c l =>
          obtain ⟨hb, hrest⟩ := List.pairwise_cons.1 h
          rw [consecutive_cons_cons] at hs
          rcases List.mem_cons.1 hs with rfl | hlater
          · rcases List.mem_cons.1 ha with rfl | ha
            · exact .inl (Std.Refl.refl _)
            · rcases List.mem_cons.1 ha with rfl | ha
              · exact .inr (Std.Refl.refl _)
              · exact .inr ((List.pairwise_cons.1 hrest).1 a ha)
          · rcases List.mem_cons.1 ha with rfl | ha
            · exact .inl (hb _ (mem_of_mem_consecutive hlater).1)
            · exact ih hrest hlater ha

theorem pairwise_consecutive [Std.Refl R] (h : l.Pairwise R) :
    (consecutive l).Pairwise fun s t => R s.2 t.1 := by
  induction l with
  | nil => exact .nil
  | cons a l ih =>
      cases l with
      | nil => exact .nil
      | cons b l =>
          obtain ⟨-, hrest⟩ := List.pairwise_cons.1 h
          rw [consecutive_cons_cons, List.pairwise_cons]
          refine ⟨fun t ht => ?_, ih hrest⟩
          rcases List.mem_cons.1 (mem_of_mem_consecutive ht).1 with hb | hlater
          · rw [hb]
            exact Std.Refl.refl _
          · exact (List.pairwise_cons.1 hrest).1 _ hlater

theorem exists_consecutive_of_mem {a b c : β} (hc : c ∈ a :: b :: l) :
    ∃ s ∈ consecutive (a :: b :: l), s.1 = c ∨ s.2 = c := by
  induction l generalizing a b with
  | nil =>
      rcases List.mem_cons.1 hc with rfl | hc
      · exact ⟨(c, b), List.mem_cons_self, .inl rfl⟩
      · exact ⟨(a, b), List.mem_cons_self, .inr (List.mem_singleton.1 hc).symm⟩
  | cons d l ih =>
      rcases List.mem_cons.1 hc with rfl | hc
      · exact ⟨(c, b), List.mem_cons_self, .inl rfl⟩
      · obtain ⟨s, hs, heq⟩ := ih hc
        exact ⟨s, List.mem_cons_of_mem _ hs, heq⟩

/-- Where the first of a list has a property and the last has not, it is lost
between two neighbours. -/
theorem exists_consecutive_of_lost {P : β → Prop} (hne : l ≠ []) (hfirst : P (l.head hne))
    (hlast : ¬ P (l.getLast hne)) : ∃ s ∈ consecutive l, P s.1 ∧ ¬ P s.2 := by
  induction l with
  | nil => exact absurd rfl hne
  | cons a l ih =>
      cases l with
      | nil => exact absurd hfirst hlast
      | cons b l =>
          by_cases hb : P b
          · obtain ⟨s, hs, hlost⟩ := ih (List.cons_ne_nil b l) hb hlast
            exact ⟨s, List.mem_cons_of_mem _ hs, hlost⟩
          · exact ⟨(a, b), List.mem_cons_self, hfirst, hb⟩

/-- Of a list along which a property is lost once and for all the scan takes
everything that has it. -/
theorem mem_takeWhile_iff {p : β → Bool} (h : l.Pairwise fun a b => p b = true → p a = true)
    {a : β} : a ∈ l.takeWhile p ↔ a ∈ l ∧ p a = true := by
  induction l with
  | nil => simp
  | cons b l ih =>
      obtain ⟨hb, hrest⟩ := List.pairwise_cons.1 h
      by_cases hpb : p b = true
      · rw [List.takeWhile_cons_of_pos hpb, List.mem_cons, List.mem_cons, ih hrest]
        constructor
        · rintro (rfl | ⟨ha, hpa⟩)
          · exact ⟨.inl rfl, hpb⟩
          · exact ⟨.inr ha, hpa⟩
        · rintro ⟨rfl | ha, hpa⟩
          · exact .inl rfl
          · exact .inr ⟨ha, hpa⟩
      · rw [List.takeWhile_cons_of_neg hpb]
        refine iff_of_false List.not_mem_nil ?_
        rintro ⟨ha, hpa⟩
        rcases List.mem_cons.1 ha with rfl | ha
        · exact hpb hpa
        · exact hpb (hb a ha hpa)

end Neighbours

/-! ## Heights -/

namespace Polyline

open Scalar

variable {α κ : Type} [LinearOrder κ] {nan : α → Prop} {rank : α → κ} {corners : List (Corner α)}
  {x y : α} {p q : Corner α}

structure Ordered (nan : α → Prop) (rank : α → κ) (corners : List (Corner α)) : Prop where
  place : ∀ p ∈ corners, ¬ nan p.x
  height : ∀ p ∈ corners, ¬ nan p.y
  ascending : corners.Pairwise fun p q => rank p.x ≤ rank q.x

namespace Ordered

variable (hc : Ordered nan rank corners)

include hc

theorem rank_le_of_mem_consecutive {s : Corner α × Corner α} (hs : s ∈ consecutive corners) :
    rank s.1.x ≤ rank s.2.x :=
  have : IsTrans (Corner α) fun p q => rank p.x ≤ rank q.x := ⟨fun _ _ _ => le_trans⟩
  pairwise_iff_consecutive.1 hc.ascending s hs

theorem pairwise_segments :
    (consecutive corners).Pairwise fun s t => rank s.2.x ≤ rank t.1.x :=
  have : Std.Refl fun p q : Corner α => rank p.x ≤ rank q.x := ⟨fun _ => le_rfl⟩
  pairwise_consecutive hc.ascending

theorem le_or_le {s : Corner α × Corner α} (hs : s ∈ consecutive corners) (hp : p ∈ corners) :
    rank p.x ≤ rank s.1.x ∨ rank s.2.x ≤ rank p.x :=
  have : Std.Refl fun p q : Corner α => rank p.x ≤ rank q.x := ⟨fun _ => le_rfl⟩
  rel_of_mem_consecutive hc.ascending hs hp

theorem le_getLast (hne : corners ≠ []) (hp : p ∈ corners) :
    rank p.x ≤ rank (corners.getLast hne).x :=
  have : Std.Refl fun p q : Corner α => rank p.x ≤ rank q.x := ⟨fun _ => le_rfl⟩
  hc.ascending.rel_getLast hp

theorem head_le (hne : corners ≠ []) (hp : p ∈ corners) :
    rank (corners.head hne).x ≤ rank p.x :=
  have : Std.Refl fun p q : Corner α => rank p.x ≤ rank q.x := ⟨fun _ => le_rfl⟩
  hc.ascending.rel_head hp

end Ordered

/-! ### Within a segment -/

def Within (rank : α → κ) (x : α) (s : Corner α × Corner α) : Prop :=
  rank s.1.x < rank x ∧ rank x < rank s.2.x

theorem exists_within (hne : corners ≠ []) (hfirst : rank (corners.head hne).x ≤ rank x)
    (hlast : rank x ≤ rank (corners.getLast hne).x) (hnone : ∀ p ∈ corners, rank p.x ≠ rank x) :
    ∃ s ∈ consecutive corners, Within rank x s := by
  obtain ⟨s, hs, hstart, hstop⟩ := exists_consecutive_of_lost (P := fun p => rank p.x < rank x) hne
    (hfirst.lt_of_ne (hnone _ (List.head_mem hne))) hlast.not_gt
  have hapart := hnone _ (mem_of_mem_consecutive hs).2
  exact ⟨s, hs, hstart, (not_lt.1 hstop).lt_of_ne' hapart⟩

/-- A place is within one segment at most, because segments meet in their ends. -/
theorem Ordered.within_unique (hc : Ordered nan rank corners) {i j : ℕ}
    {s t : Corner α × Corner α} (hi : (consecutive corners)[i]? = some s)
    (hj : (consecutive corners)[j]? = some t) (hs : Within rank x s) (ht : Within rank x t) :
    i = j := by
  have hapart {i j : ℕ} {s t : Corner α × Corner α} (hi : (consecutive corners)[i]? = some s)
      (hj : (consecutive corners)[j]? = some t) (hs : Within rank x s) (ht : Within rank x t) :
      ¬ i < j := by
    intro hlt
    obtain ⟨hilt, rfl⟩ := List.getElem?_eq_some_iff.1 hi
    obtain ⟨hjlt, rfl⟩ := List.getElem?_eq_some_iff.1 hj
    have hmeet := List.pairwise_iff_getElem.1 hc.pairwise_segments i j hilt hjlt hlt
    exact ((hs.2.trans_le hmeet).trans ht.1).false
  exact le_antisymm (not_lt.1 (hapart hj hi ht hs)) (not_lt.1 (hapart hi hj hs ht))

variable [Scalar α]

theorem height?_eq_none_iff : height? x corners = none ↔ corners = [] := by
  cases corners with
  | nil => simp [height?]
  | cons first rest =>
      rw [height?]
      split_ifs <;> simp

/-- At an end of a segment its height is that of the end, of the higher one
where both are there. -/
theorem heightBetween_of_end (h : Ranks nan rank) (hp : ¬ nan p.x ∧ ¬ nan p.y)
    (hq : ¬ nan q.x ∧ ¬ nan q.y) (hx : ¬ nan x) (hend : rank p.x = rank x ∨ rank q.x = rank x) :
    ∃ top ∈ [p, q], rank top.x = rank x ∧ heightBetween x p q = top.y ∧
      ∀ e ∈ [p, q], rank e.x = rank x → rank e.y ≤ rank top.y := by
  have hstart : (x == p.x) = true ↔ rank p.x = rank x := (h.beq_iff hx hp.1).trans eq_comm
  have hstop : (x == q.x) = true ↔ rank q.x = rank x := (h.beq_iff hx hq.1).trans eq_comm
  unfold heightBetween
  by_cases hpx : rank p.x = rank x
  · by_cases hqx : rank q.x = rank x
    · rw [hstart.2 hpx, hstop.2 hqx, Bool.true_and, if_pos rfl, h.larger_eq hp.2 hq.2]
      by_cases hlt : rank p.y < rank q.y
      · rw [if_pos hlt]
        exact ⟨q, by simp, hqx, rfl, by simp [hlt.le]⟩
      · rw [if_neg hlt]
        exact ⟨p, by simp, hpx, rfl, by simp [not_lt.1 hlt]⟩
    · rw [hstart.2 hpx, Bool.eq_false_iff.2 (mt hstop.1 hqx)]
      exact ⟨p, by simp, hpx, rfl, by simp [hqx]⟩
  · have hqx := hend.resolve_left hpx
    rw [Bool.eq_false_iff.2 (mt hstart.1 hpx), hstop.2 hqx]
    exact ⟨q, by simp, hqx, rfl, by simp [hpx]⟩

namespace Ordered

variable (h : Ranks nan rank) (hc : Ordered nan rank corners)

include h hc

theorem mem_heightsAt (hx : ¬ nan x) :
    y ∈ heightsAt x corners ↔ ∃ s ∈ consecutive corners,
      (rank s.1.x ≤ rank x ∧ rank x ≤ rank s.2.x) ∧ heightBetween x s.1 s.2 = y := by
  have hstart {s : Corner α × Corner α} (hs : s ∈ consecutive corners) :
      decide (¬ x < s.1.x) = true ↔ rank s.1.x ≤ rank x := by
    rw [decide_eq_true_eq, h.lt_iff hx (hc.place _ (mem_of_mem_consecutive hs).1), not_lt]
  have hstop {s : Corner α × Corner α} (hs : s ∈ consecutive corners) :
      decide (¬ s.2.x < x) = true ↔ rank x ≤ rank s.2.x := by
    rw [decide_eq_true_eq, h.lt_iff (hc.place _ (mem_of_mem_consecutive hs).2) hx, not_lt]
  have hscan : (consecutive corners).Pairwise fun s t =>
      decide (¬ x < t.1.x) = true → decide (¬ x < s.1.x) = true := by
    refine hc.pairwise_segments.imp_of_mem fun {s t} hs ht hst => ?_
    rw [hstart hs, hstart ht]
    exact ((hc.rank_le_of_mem_consecutive hs).trans hst).trans
  rw [heightsAt, List.mem_map]
  constructor
  · rintro ⟨s, hmem, heq⟩
    obtain ⟨hmem, hend⟩ := List.mem_filter.1 hmem
    obtain ⟨hs, hbefore⟩ := (mem_takeWhile_iff hscan).1 hmem
    exact ⟨s, hs, ⟨(hstart hs).1 hbefore, (hstop hs).1 hend⟩, heq⟩
  · rintro ⟨s, hs, ⟨hbefore, hend⟩, heq⟩
    refine ⟨s, List.mem_filter.2 ⟨?_, (hstop hs).2 hend⟩, heq⟩
    exact (mem_takeWhile_iff hscan).2 ⟨hs, (hstart hs).2 hbefore⟩

/-! ### Outside the corners -/

theorem height?_of_lt (hne : corners ≠ []) (hx : ¬ nan x)
    (hlt : rank x < rank (corners.head hne).x) :
    height? x corners = some (corners.head hne).y := by
  cases corners with
  | nil => exact absurd rfl hne
  | cons first rest =>
      rw [height?, if_pos ((h.lt_iff hx (hc.place _ List.mem_cons_self)).2 hlt)]
      rfl

theorem height?_of_gt (hne : corners ≠ []) (hx : ¬ nan x)
    (hlt : rank (corners.getLast hne).x < rank x) :
    height? x corners = some (corners.getLast hne).y := by
  have hfirst := hc.head_le hne (List.getLast_mem hne)
  have hlast := (h.lt_iff (hc.place _ (List.getLast_mem hne)) hx).2 hlt
  have hstart := h.lt_iff hx (hc.place _ (List.head_mem hne))
  cases corners with
  | nil => exact absurd rfl hne
  | cons first rest =>
      rw [List.getLast_eq_getLastD] at hlast hfirst hlt ⊢
      rw [List.head_cons] at hfirst hstart
      rw [height?, if_neg fun hlt' => (hstart.1 hlt').not_ge (hfirst.trans hlt.le), if_pos hlast]

/-! ### Between the corners -/

theorem height?_of_between (hne : corners ≠ []) (hx : ¬ nan x)
    (hfirst : rank (corners.head hne).x ≤ rank x)
    (hlast : rank x ≤ rank (corners.getLast hne).x) :
    height? x corners = some ((greatest? (heightsAt x corners)).getD (corners.head hne).y) := by
  have hstart := h.lt_iff hx (hc.place _ (List.head_mem hne))
  have hstop := h.lt_iff (hc.place _ (List.getLast_mem hne)) hx
  cases corners with
  | nil => exact absurd rfl hne
  | cons first rest =>
      rw [List.getLast_eq_getLastD] at hlast hstop
      rw [List.head_cons] at hfirst hstart ⊢
      rw [height?, if_neg fun hlt => (hstart.1 hlt).not_ge hfirst,
        if_neg fun hlt => (hstop.1 hlt).not_ge hlast]

theorem height?_of_mem_segment {s : Corner α × Corner α} (hs : s ∈ consecutive corners)
    (hx : ¬ nan x) (hstart : rank s.1.x < rank x) (hstop : rank x < rank s.2.x) :
    height? x corners = some (s.1.y + (x - s.1.x) * (s.2.y - s.1.y) / (s.2.x - s.1.x)) := by
  obtain ⟨hp, hq⟩ := mem_of_mem_consecutive hs
  have hne : corners ≠ [] := List.ne_nil_of_mem hp
  have hbetween : heightBetween x s.1 s.2 =
      s.1.y + (x - s.1.x) * (s.2.y - s.1.y) / (s.2.x - s.1.x) := by
    have hstart' : (x == s.1.x) = false :=
      Bool.eq_false_iff.2 (mt (h.beq_iff hx (hc.place _ hp)).1 hstart.ne')
    have hstop' : (x == s.2.x) = false :=
      Bool.eq_false_iff.2 (mt (h.beq_iff hx (hc.place _ hq)).1 hstop.ne)
    unfold heightBetween
    rw [hstart', hstop']
    rfl
  -- no other segment holds the place, because those before have ended and those
  -- after are yet to start
  have hother : ∀ t ∈ consecutive corners, rank t.1.x ≤ rank x → rank x ≤ rank t.2.x → t = s := by
    intro t ht hle hge
    by_contra hts
    let R (s t : Corner α × Corner α) := rank s.2.x ≤ rank t.1.x ∨ rank t.2.x ≤ rank s.1.x
    have : Std.Symm R := ⟨fun _ _ => Or.symm⟩
    have hapart := (hc.pairwise_segments.imp (S := R) fun hst => .inl hst).forall ht hs hts
    rcases hapart with hbefore | hafter
    · exact (hge.trans hbefore).not_gt hstart
    · exact (hafter.trans hle).not_gt hstop
  have hall : ∀ y ∈ heightsAt x corners, y = heightBetween x s.1 s.2 := by
    intro y hy
    obtain ⟨t, ht, ⟨hle, hge⟩, rfl⟩ := (hc.mem_heightsAt h hx).1 hy
    rw [hother t ht hle hge]
  have hmem : heightBetween x s.1 s.2 ∈ heightsAt x corners :=
    (hc.mem_heightsAt h hx).2 ⟨s, hs, ⟨hstart.le, hstop.le⟩, rfl⟩
  rw [hc.height?_of_between h hne hx ((hc.head_le hne hp).trans hstart.le)
    (hstop.le.trans (hc.le_getLast hne hq)), greatest?_of_forall_eq hmem hall, hbetween]
  rfl

/-- At a place of some corners every segment that holds it has an end there, and
the height of that. -/
theorem heightBetween_of_corner (hp : p ∈ corners) (hx : ¬ nan x) (hpx : rank p.x = rank x)
    {s : Corner α × Corner α} (hs : s ∈ consecutive corners) (hstart : rank s.1.x ≤ rank x)
    (hstop : rank x ≤ rank s.2.x) :
    ∃ top ∈ [s.1, s.2], rank top.x = rank x ∧ heightBetween x s.1 s.2 = top.y ∧
      ∀ e ∈ [s.1, s.2], rank e.x = rank x → rank e.y ≤ rank top.y := by
  obtain ⟨hfirst, hsecond⟩ := mem_of_mem_consecutive hs
  refine heightBetween_of_end h ⟨hc.place _ hfirst, hc.height _ hfirst⟩
    ⟨hc.place _ hsecond, hc.height _ hsecond⟩ hx ?_
  rcases hc.le_or_le hs hp with hbefore | hafter
  · exact .inl (le_antisymm hstart (hpx ▸ hbefore))
  · exact .inr (le_antisymm (hpx ▸ hafter) hstop)

theorem exists_corner_of_mem_heightsAt (hp : p ∈ corners) (hx : ¬ nan x)
    (hpx : rank p.x = rank x) (hy : y ∈ heightsAt x corners) :
    ∃ top ∈ corners, rank top.x = rank x ∧ top.y = y := by
  obtain ⟨s, hs, ⟨hstart, hstop⟩, rfl⟩ := (hc.mem_heightsAt h hx).1 hy
  obtain ⟨hfirst, hsecond⟩ := mem_of_mem_consecutive hs
  obtain ⟨top, htop, htopx, heq, -⟩ := hc.heightBetween_of_corner h hp hx hpx hs hstart hstop
  have hends : ∀ e ∈ [s.1, s.2], e ∈ corners := by simp [hfirst, hsecond]
  exact ⟨top, hends top htop, htopx, heq.symm⟩

/-- Of several corners none is above all of the heights at its place. -/
theorem exists_mem_heightsAt_ge {first second : Corner α} {rest : List (Corner α)}
    (hcorners : corners = first :: second :: rest) (hp : p ∈ corners) (hx : ¬ nan x)
    (hpx : rank p.x = rank x) : ∃ y ∈ heightsAt x corners, rank p.y ≤ rank y := by
  obtain ⟨s, hs, hsp⟩ : ∃ s ∈ consecutive corners, s.1 = p ∨ s.2 = p := by
    subst hcorners
    exact exists_consecutive_of_mem hp
  have hascend := hc.rank_le_of_mem_consecutive hs
  have hend : p ∈ [s.1, s.2] := by
    rcases hsp with rfl | rfl <;> simp
  have hholds : rank s.1.x ≤ rank x ∧ rank x ≤ rank s.2.x := by
    rcases hsp with rfl | rfl
    · exact ⟨hpx.le, hpx ▸ hascend⟩
    · exact ⟨hpx ▸ hascend, hpx.ge⟩
  obtain ⟨top, -, -, heq, hle⟩ :=
    hc.heightBetween_of_corner h hp hx hpx hs hholds.1 hholds.2
  exact ⟨_, (hc.mem_heightsAt h hx).2 ⟨s, hs, hholds, rfl⟩, heq ▸ hle p hend hpx⟩

/-- At a place of some corners the height is that of the highest of them. -/
theorem exists_height?_of_corner (hp : p ∈ corners) (hx : ¬ nan x) (hpx : rank p.x = rank x) :
    ∃ top ∈ corners, rank top.x = rank x ∧ height? x corners = some top.y ∧
      ∀ q ∈ corners, rank q.x = rank x → rank q.y ≤ rank top.y := by
  have hne : corners ≠ [] := List.ne_nil_of_mem hp
  rw [hc.height?_of_between h hne hx (hpx ▸ hc.head_le hne hp) (hpx ▸ hc.le_getLast hne hp)]
  have hnumbers : ∀ y ∈ heightsAt x corners, ¬ nan y := by
    intro y hy
    obtain ⟨top, htop, -, rfl⟩ := hc.exists_corner_of_mem_heightsAt h hp hx hpx hy
    exact hc.height top htop
  have hgreatest {y : α} (hy : greatest? (heightsAt x corners) = some y) :=
    h.greatest?_spec hnumbers hy
  have hge {first second : Corner α} {rest : List (Corner α)} {q : Corner α}
      (hcorners : corners = first :: second :: rest) (hq : q ∈ corners)
      (hqx : rank q.x = rank x) := hc.exists_mem_heightsAt_ge h hcorners hq hx hqx
  have hcorner {y : α} (hy : y ∈ heightsAt x corners) :=
    hc.exists_corner_of_mem_heightsAt h hp hx hpx hy
  cases corners with
  | nil => exact absurd rfl hne
  | cons first rest =>
      cases rest with
      | nil =>
          -- a single corner has no segments
          obtain rfl := List.mem_singleton.1 hp
          exact ⟨p, List.mem_cons_self, hpx, rfl, by simp⟩
      | cons second rest =>
          obtain ⟨y, hy, -⟩ := hge rfl hp hpx
          obtain ⟨highest, hhighest⟩ := exists_greatest? (List.ne_nil_of_mem hy)
          obtain ⟨hmem, hle⟩ := hgreatest hhighest
          obtain ⟨top, htop, htopx, rfl⟩ := hcorner hmem
          refine ⟨top, htop, htopx, by rw [hhighest, Option.getD_some], fun q hq hqx => ?_⟩
          obtain ⟨z, hz, hqz⟩ := hge rfl hq hqx
          exact hqz.trans (hle z hz)

theorem height?_eq_corner_or_within (hne : corners ≠ []) (hx : ¬ nan x) :
    (∃ p ∈ corners, height? x corners = some p.y) ∨
      ∃ s ∈ consecutive corners, Within rank x s := by
  rcases lt_or_ge (rank x) (rank (corners.head hne).x) with hbefore | hfirst
  · exact .inl ⟨_, List.head_mem hne, hc.height?_of_lt h hne hx hbefore⟩
  rcases lt_or_ge (rank (corners.getLast hne).x) (rank x) with hbeyond | hlast
  · exact .inl ⟨_, List.getLast_mem hne, hc.height?_of_gt h hne hx hbeyond⟩
  by_cases hcorner : ∃ p ∈ corners, rank p.x = rank x
  · obtain ⟨p, hp, hpx⟩ := hcorner
    obtain ⟨top, htop, -, hheight, -⟩ := hc.exists_height?_of_corner h hp hx hpx
    exact .inl ⟨top, htop, hheight⟩
  · exact .inr (exists_within hne hfirst hlast fun p hp hpx => hcorner ⟨p, hp, hpx⟩)

end Ordered

end Polyline

end FuzzyInference
