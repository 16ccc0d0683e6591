import FuzzyInference.FuzzySet
import FuzzyInference.Proofs.Logic.Congruence

/-!
# Equal curves have equal heights

Curves are compared by the numbers of their points, and numbers by value.  What
is read off equal curves at equal places is equal again: no division that a
height takes has a zero below the line, so the sign of a zero is never seen.
-/

namespace FuzzyInference

open Scalar Binary

/-! ## Lists of related elements -/

section Lists

variable {β γ : Type} {R : β → γ → Prop} {l : List β} {r : List γ}

theorem forall₂_consecutive (h : List.Forall₂ R l r) :
    List.Forall₂ (fun s t => R s.1 t.1 ∧ R s.2 t.2) (consecutive l) (consecutive r) := by
  induction h with
  | nil => exact .nil
  | cons hfirst hrest ih =>
      cases hrest with
      | nil => exact .nil
      | cons hsecond hrest => exact .cons ⟨hfirst, hsecond⟩ ih

private theorem forall₂_takeWhile {p : β → Bool} {q : γ → Bool}
    (hpq : ∀ a b, R a b → p a = q b) (h : List.Forall₂ R l r) :
    List.Forall₂ (fun a b => R a b ∧ p a = true) (l.takeWhile p) (r.takeWhile q) := by
  induction h with
  | nil => exact .nil
  | @cons a b l r hab _ ih =>
      rw [List.takeWhile_cons, List.takeWhile_cons, ← hpq a b hab]
      cases hp : p a with
      | true => exact .cons ⟨hab, hp⟩ ih
      | false => exact .nil

private theorem forall₂_filter {p : β → Bool} {q : γ → Bool}
    (hpq : ∀ a b, R a b → p a = q b) (h : List.Forall₂ R l r) :
    List.Forall₂ (fun a b => R a b ∧ p a = true) (l.filter p) (r.filter q) := by
  induction h with
  | nil => exact .nil
  | @cons a b l r hab _ ih =>
      rw [List.filter_cons, List.filter_cons, ← hpq a b hab]
      cases hp : p a with
      | true => exact .cons ⟨hab, hp⟩ ih
      | false => exact ih

theorem forall₂_getLastD (h : List.Forall₂ R l r) {a : β} {b : γ} (hab : R a b) :
    R (l.getLastD a) (r.getLastD b) := by
  induction h generalizing a b with
  | nil => exact hab
  | cons hfirst _ ih =>
      rw [List.getLastD_cons, List.getLastD_cons]
      exact ih hfirst

theorem forall₂_all {p : β → Bool} {q : γ → Bool} (hpq : ∀ a b, R a b → p a = q b)
    (h : List.Forall₂ R l r) : l.all p = r.all q := by
  induction h with
  | nil => rfl
  | cons hab _ ih => rw [List.all_cons, List.all_cons, hpq _ _ hab, ih]

theorem forall₂_head (h : List.Forall₂ R l r) (hl : l ≠ []) (hr : r ≠ []) :
    R (l.head hl) (r.head hr) := by
  cases h with
  | nil => exact absurd rfl hl
  | cons hfirst _ => exact hfirst

theorem forall₂_getLast (h : List.Forall₂ R l r) (hl : l ≠ []) (hr : r ≠ []) :
    R (l.getLast hl) (r.getLast hr) := by
  cases h with
  | nil => exact absurd rfl hl
  | cons hfirst hrest =>
      rw [List.getLast_eq_getLastD, List.getLast_eq_getLastD]
      exact forall₂_getLastD hrest hfirst

theorem forall₂_getLast? (h : List.Forall₂ R l r) : Option.Rel R l.getLast? r.getLast? := by
  have hlast := forall₂_getLast h
  cases h with
  | nil => exact .none
  | cons hfirst hrest =>
      rw [List.getLast?_eq_some_getLast (List.cons_ne_nil _ _),
        List.getLast?_eq_some_getLast (List.cons_ne_nil _ _)]
      exact .some (hlast _ _)

theorem exists_forall₂ (h : ∀ a ∈ l, ∃ b, R a b) : ∃ r, List.Forall₂ R l r := by
  induction l with
  | nil => exact ⟨[], .nil⟩
  | cons a l ih =>
      obtain ⟨⟨b, hb⟩, hrest⟩ := List.forall_mem_cons.1 h
      obtain ⟨r, hr⟩ := ih hrest
      exact ⟨b :: r, .cons hb hr⟩

private theorem forall₂_of_beq [BEq β] {l r : List β} (h : (l == r) = true) :
    List.Forall₂ (fun a b => (a == b) = true) l r := by
  induction l generalizing r with
  | nil =>
      cases r with
      | nil => exact .nil
      | cons b r => cases h
  | cons a l ih =>
      cases r with
      | nil => cases h
      | cons b r =>
          rw [List.cons_beq_cons, Bool.and_eq_true] at h
          exact .cons h.1 (ih h.2)

private theorem beq_of_forall [BEq β] {l : List β} (h : ∀ a ∈ l, (a == a) = true) :
    (l == l) = true := by
  induction l with
  | nil => rfl
  | cons a l ih =>
      rw [List.cons_beq_cons, Bool.and_eq_true]
      exact ⟨h a List.mem_cons_self, ih fun b hb => h b (List.mem_cons_of_mem _ hb)⟩

end Lists

/-! ## Polylines -/

structure Corner.Same (p q : Corner Float) : Prop where
  x : Scalar.Same p.x q.x
  y : Scalar.Same p.y q.y

namespace Polyline

variable {x x' : Float} {p p' q q' : Corner Float} {l r : List (Corner Float)}

theorem heightBetween_same (hx : Same x x') (hp : p.Same p') (hq : q.Same q')
    (hsep : ¬ (x == p.x) = true → ¬ (x == q.x) = true → ¬ (q.x - p.x == 0) = true) :
    Same (heightBetween x p q) (heightBetween x' p' q') := by
  unfold heightBetween
  rw [← hx.beq_eq hp.x, ← hx.beq_eq hq.x]
  by_cases hxp : (x == p.x) = true
  · by_cases hxq : (x == q.x) = true
    · simp only [hxp, hxq, Bool.and_true, if_true]
      exact hp.y.larger hq.y
    · simp only [hxp, hxq, Bool.and_false, if_true]
      exact hp.y
  · by_cases hxq : (x == q.x) = true
    · simp only [hxp, hxq, Bool.false_and, if_true]
      exact hq.y
    · simp only [hxp, hxq, Bool.false_and]
      exact hp.y.add (((hx.sub hp.x).mul (hq.y.sub hp.y)).div (hq.x.sub hp.x) (hsep hxp hxq))

theorem heightsAt_same (hnan : ¬ IsNaN x) (hx : Same x x') (h : List.Forall₂ Corner.Same l r) :
    List.Forall₂ Same (heightsAt x l) (heightsAt x' r) := by
  have hsegments := forall₂_consecutive h
  have hstarted := forall₂_takeWhile (p := fun s => ¬ x < s.1.x) (q := fun s => ¬ x' < s.1.x)
    (fun s t hst => by rw [decide_eq_decide, not_iff_not, hx.lt_iff hst.1.x]) hsegments
  have hheld := forall₂_filter (p := fun s => ¬ s.2.x < x) (q := fun s => ¬ s.2.x < x')
    (fun s t hst => by rw [decide_eq_decide, not_iff_not, hst.1.2.x.lt_iff hx]) hstarted
  refine List.rel_map ?_ hheld
  rintro s t ⟨⟨⟨hp, hq⟩, hstart⟩, hend⟩
  apply heightBetween_same hx hp hq
  exact sub_ne_zero_of_between hnan (by simpa using hstart) (by simpa using hend)

theorem height?_same (hnan : ¬ IsNaN x) (hx : Same x x') (h : List.Forall₂ Corner.Same l r) :
    Option.Rel Same (height? x l) (height? x' r) := by
  have hheights := Same.greatest? (heightsAt_same hnan hx h)
  cases h with
  | nil => exact .none
  | cons hfirst hrest =>
      have hlast := forall₂_getLastD hrest hfirst
      simp only [height?, hx.lt_iff hfirst.x, hlast.x.lt_iff hx]
      split_ifs
      · exact .some hfirst.y
      · exact .some hlast.y
      · exact .some (Same.getD hheights hfirst.y)

end Polyline

/-! ## Curves and shapes -/

structure Point.Same (p q : Point Float) : Prop where
  x : Scalar.Same p.x q.x
  y : p.y.Same q.y

namespace Curve

variable {c c' : Curve Float}

theorem corners_same (h : List.Forall₂ Point.Same c.points c'.points) :
    List.Forall₂ Corner.Same c.corners c'.corners :=
  List.rel_map (fun _ _ hpq => ⟨hpq.x, hpq.y⟩) h

theorem lowest_same (h : List.Forall₂ Point.Same c.points c'.points) :
    c.lowest.Same c'.lowest :=
  List.rel_foldl (fun _ _ hacc _ _ hy => hacc.min hy) (Degree.Same.refl 1)
    (List.rel_map (fun _ _ hpq => hpq.y) h)

theorem highest_same (h : List.Forall₂ Point.Same c.points c'.points) :
    c.highest.Same c'.highest :=
  List.rel_foldl (fun _ _ hacc _ _ hy => hacc.max hy) (Degree.Same.refl 0)
    (List.rel_map (fun _ _ hpq => hpq.y) h)

theorem membership_same {x x' : Float} (hnan : ¬ IsNaN x) (hx : Scalar.Same x x')
    (h : List.Forall₂ Point.Same c.points c'.points) :
    (c.membership x).Same (c'.membership x') :=
  Degree.Same.clamp (Scalar.Same.getD (Polyline.height?_same hnan hx (corners_same h))
    (lowest_same h)) (lowest_same h) (highest_same h)

end Curve

namespace Shape

inductive Same : Shape Float → Shape Float → Prop
  | graph {kind : CurveKind} {c c' : Curve Float} {h : kind.Fits c} {h' : kind.Fits c'}
      (hpoints : List.Forall₂ Point.Same c.points c'.points) :
      Same (.graph kind c h) (.graph kind c' h')
  | singleton {p p' : Position Float} (hx : Scalar.Same p.x p'.x) :
      Same (.singleton p) (.singleton p')

variable {s t : Shape Float}

theorem same_of_beq (h : (s == t) = true) : Same s t := by
  cases s with
  | graph kind c hc =>
      cases t with
      | graph kind' c' hc' =>
          change (kind == kind' && c.points == c'.points) = true at h
          rw [Bool.and_eq_true, beq_iff_eq] at h
          obtain ⟨rfl, hpoints⟩ := h
          refine .graph ((forall₂_of_beq hpoints).imp fun p q hpq => ?_)
          change (p.x == q.x && p.y.value == q.y.value) = true at hpq
          rw [Bool.and_eq_true] at hpq
          exact ⟨Scalar.Same.of_beq hpq.1, Scalar.Same.of_beq hpq.2⟩
      | singleton p' => cases h
  | singleton p =>
      cases t with
      | graph kind' c' hc' => cases h
      | singleton p' => exact .singleton (Scalar.Same.of_beq h)

private theorem beq_self_of_isFinite {x : Float} (h : Scalar.isFinite x = true) :
    (x == x) = true := by
  obtain ⟨q, hq⟩ := isFinite_iff.1 h
  exact (hq.beq_iff hq).2 rfl

theorem beq_self (s : Shape Float) : (s == s) = true := by
  cases s with
  | graph kind c hc =>
      change (kind == kind && c.points == c.points) = true
      rw [beq_self_eq_true, Bool.true_and]
      apply beq_of_forall
      intro p _
      obtain ⟨y, hy⟩ := p.y.exists_inUnit
      change (p.x == p.x && p.y.value == p.y.value) = true
      rw [Bool.and_eq_true]
      exact ⟨beq_self_of_isFinite p.finite, (hy.isValue.beq_iff hy.isValue).2 rfl⟩
  | singleton p => exact beq_self_of_isFinite p.finite

namespace Same

theorem refl (s : Shape Float) : Same s s := same_of_beq (beq_self s)

theorem symm (h : Same s t) : Same t s := by
  cases h with
  | graph hpoints =>
      exact .graph (hpoints.flip.imp fun p q hpq => ⟨hpq.x.symm, Scalar.Same.symm hpq.y⟩)
  | singleton hp => exact .singleton hp.symm

theorem membership {x x' : Float} (h : Same s t) (hnan : ¬ IsNaN x) (hx : Scalar.Same x x') :
    (s.membership x).Same (t.membership x') := by
  cases h with
  | graph hpoints => exact Curve.membership_same hnan hx hpoints
  | singleton hp =>
      change (Degree.ofBool _).Same (Degree.ofBool _)
      rw [hx.beq_eq hp]
      exact Degree.Same.refl _

theorem isSingleton_eq (h : Same s t) : s.isSingleton = t.isSingleton := by
  cases h <;> rfl

theorem positions (h : Same s t) : List.Forall₂ Scalar.Same s.positions t.positions := by
  cases h with
  | graph hpoints => exact List.rel_map (fun _ _ hpq => hpq.x) hpoints
  | singleton hp => exact .cons hp .nil

theorem lower (h : Same s t) : Scalar.Same s.lower t.lower := by
  cases h with
  | @graph kind c c' _ _ hpoints => exact (forall₂_head hpoints c.ne_nil c'.ne_nil).x
  | singleton hp => exact hp

theorem upper (h : Same s t) : Scalar.Same s.upper t.upper := by
  cases h with
  | @graph kind c c' _ _ hpoints => exact (forall₂_getLast hpoints c.ne_nil c'.ne_nil).x
  | singleton hp => exact hp

end Same

end Shape

end FuzzyInference
