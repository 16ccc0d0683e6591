import FuzzyInference.Proofs.Curve.Refinement
import FuzzyInference.Proofs.Rational.Degree
import Mathlib.Data.List.InsertIdx

/-!
# The center of gravity of a sampled curve

In exact arithmetic the area and the moment below a curve are the sums over its
segments that integration gives.  A sample on a segment divides both.  So the
center is one of the curve, in whichever corners that is given.
-/

namespace FuzzyInference.Rational

open Scalar Polyline

variable {corners corners' : List (Corner ℚ)} {r : Corner ℚ}

theorem lamina_area_eq (corners : List (Corner ℚ)) :
    (lamina corners).area = (segmentAreas corners).sum := by
  rw [lamina_eq, segmentAreas]

theorem lamina_moment_eq (corners : List (Corner ℚ)) :
    (lamina corners).moment = ((consecutive corners).map fun s =>
      (s.2.x - s.1.x) * (s.1.x * (2 * s.1.y + s.2.y) + s.2.x * (s.1.y + 2 * s.2.y)) / 6).sum := by
  rw [lamina_eq]
  apply congrArg List.sum
  apply List.map_congr_left
  intro s _
  rw [segmentMoment]
  ring

theorem centerOfGravity?_eq (corners : List (Corner ℚ)) : centerOfGravity? corners =
    if 0 < (segmentAreas corners).sum then
      some (((consecutive corners).map fun s => (s.2.x - s.1.x) *
        (s.1.x * (2 * s.1.y + s.2.y) + s.2.x * (s.1.y + 2 * s.2.y)) / 6).sum /
          (segmentAreas corners).sum)
    else none := by
  rw [centerOfGravity?, lamina_area_eq, lamina_moment_eq]

theorem centerOfGravity?_congr (h : lamina corners = lamina corners') :
    centerOfGravity? corners = centerOfGravity? corners' := by
  rw [centerOfGravity?, centerOfGravity?, h]

/-! ## Further samples -/

theorem sampled_insertIdx (places heights : List ℚ) (i : ℕ) (v h : ℚ) :
    sampled (places.insertIdx i v) (heights.insertIdx i h) =
      (sampled places heights).insertIdx i ⟨v, h⟩ := by
  induction i generalizing places heights with
  | zero => rfl
  | succ i ih =>
      cases places with
      | nil => rfl
      | cons x places =>
          cases heights with
          | nil => rw [List.insertIdx_succ_nil, sampled, sampled, List.zipWith_nil_right,
              List.zipWith_nil_right, List.insertIdx_succ_nil]
          | cons y heights =>
              change _ :: sampled (places.insertIdx i v) (heights.insertIdx i h) = _
              rw [ih]
              rfl

theorem lamina_insertIdx {i : ℕ} (hi : i + 1 < corners.length)
    (hr : OnLine corners[i] corners[i + 1] r) :
    lamina (corners.insertIdx (i + 1) r) = lamina corners := by
  induction i generalizing corners with
  | zero =>
      match corners, hi with
      | p :: q :: rest, _ => exact lamina_of_onLine hr rest
  | succ i ih =>
      match corners, hi with
      | p :: q :: rest, hi =>
          have hlater : lamina ((q :: rest).insertIdx (i + 1) r) = lamina (q :: rest) :=
            ih (Nat.lt_of_succ_lt_succ hi) hr
          exact lamina_cons_congr p hlater

/-! ## Corners of one curve -/

theorem corner_eq {p q : Corner ℚ} (hx : p.x = q.x) (hy : p.y = q.y) : p = q := by
  cases p
  cases q
  exact congr (congrArg Corner.mk hx) hy

def RunsBetween (f : ℚ → ℚ) (p q : Corner ℚ) : Prop :=
  ∀ x, p.x < x → x < q.x → OnLine p q ⟨x, f x⟩

namespace RunsBetween

variable {f : ℚ → ℚ} {p p' q q' : Corner ℚ}

/-- The start of a segment is found from two places within it. -/
theorem start_eq (h : RunsBetween f p q) {step : ℚ} (hstep : 0 < step)
    (hle : p.x + 3 * step ≤ q.x) : p.y = 2 * f (p.x + step) - f (p.x + 2 * step) := by
  have hwidth : q.x - p.x ≠ 0 := by linarith
  have hnear := h (p.x + step) (by linarith) (by linarith)
  have hfar := h (p.x + 2 * step) (by linarith) (by linarith)
  unfold OnLine at hnear hfar
  apply mul_right_cancel₀ hwidth
  linear_combination hfar - 2 * hnear

/-- Two segments along which a function runs from one place start in one corner, and
the longer one goes through the end of the other. -/
theorem onLine (h : RunsBetween f p q) (h' : RunsBetween f p' q') (hstart : p.x = p'.x)
    (hwidth : p.x < q.x) (hle : q.x ≤ q'.x) : p = p' ∧ OnLine p q' q := by
  obtain ⟨step, hstep, hq⟩ : ∃ step, 0 < step ∧ q.x = p.x + 3 * step :=
    ⟨(q.x - p.x) / 3, by linarith, by ring⟩
  have hp : p.y = p'.y := by
    rw [h.start_eq hstep hq.ge, h'.start_eq hstep (hstart ▸ hq ▸ hle), hstart]
  obtain rfl : p = p' := corner_eq hstart hp
  have hnear := h (p.x + step) (by linarith) (by linarith)
  have hnear' := h' (p.x + step) (by linarith) (by linarith)
  unfold OnLine at hnear hnear' ⊢
  rw [hq, add_sub_cancel_left, add_sub_cancel_left] at hnear
  rw [add_sub_cancel_left] at hnear'
  have hheight : q.y - p.y = 3 * (f (p.x + step) - p.y) := by
    apply mul_left_cancel₀ hstep.ne'
    linear_combination -hnear
  rw [hq, hheight]
  exact ⟨rfl, by linear_combination 3 * hnear'⟩

theorem remainder (h : RunsBetween f p q') (hq : OnLine p q' q) (hwidth : p.x < q'.x)
    (hle : p.x ≤ q.x) : RunsBetween f q q' := by
  intro x hqx hxq
  have hx := h x (hle.trans_lt hqx) hxq
  unfold OnLine at hq hx ⊢
  apply mul_right_cancel₀ (sub_pos.2 hwidth).ne'
  linear_combination (q'.x - q.x) * (hx - hq) + (x - q.x) * hq

end RunsBetween

structure Traces (f : ℚ → ℚ) (corners : List (Corner ℚ)) : Prop where
  ascending : corners.Pairwise fun p q => p.x ≤ q.x
  runs : ∀ s ∈ consecutive corners, RunsBetween f s.1 s.2

theorem Traces.tail {f : ℚ → ℚ} {p : Corner ℚ} {rest : List (Corner ℚ)}
    (h : Traces f (p :: rest)) : Traces f rest where
  ascending := (List.pairwise_cons.1 h.ascending).2
  runs s hs := by
    cases rest with
    | nil => exact absurd hs List.not_mem_nil
    | cons q rest => exact h.runs s (List.mem_cons_of_mem _ hs)

/-- Two lists of corners along one function, from one place to another. -/
structure Alongside (f : ℚ → ℚ) (corners corners' : List (Corner ℚ)) : Prop where
  traces : Traces f corners
  traces' : Traces f corners'
  start : corners.head?.map Corner.x = corners'.head?.map Corner.x
  stop : corners.getLast?.map Corner.x = corners'.getLast?.map Corner.x

namespace Alongside

variable {f : ℚ → ℚ} {p p' q q' : Corner ℚ} {rest rest' : List (Corner ℚ)}

theorem symm (h : Alongside f corners corners') : Alongside f corners' corners :=
  ⟨h.traces', h.traces, h.start.symm, h.stop.symm⟩

theorem start_eq (h : Alongside f (p :: rest) (p' :: rest')) : p.x = p'.x :=
  Option.some.inj h.start

theorem vertical (h : Alongside f (p :: q :: rest) corners') (hpq : p.x = q.x) :
    Alongside f (q :: rest) corners' where
  traces := h.traces.tail
  traces' := h.traces'
  start := (congrArg some hpq.symm).trans h.start
  stop := h.stop

theorem eq_of_singleton (h : Alongside f [p] (p' :: q' :: rest')) : p'.x = q'.x := by
  obtain ⟨last, hlast, heq⟩ := Option.map_eq_some_iff.1 h.stop.symm
  rw [List.getLast?_cons_cons] at hlast
  have : Std.Refl fun p q : Corner ℚ => p.x ≤ q.x := ⟨fun _ => le_rfl⟩
  have hfirst := h.traces'.tail.ascending.rel_head (List.mem_of_getLast? hlast)
  have hnext := (List.pairwise_cons.1 h.traces'.ascending).1 q' List.mem_cons_self
  exact le_antisymm hnext ((hfirst.trans_eq heq).trans_eq h.start_eq)

/-- Where one segment ends before the other, that is divided. -/
theorem divided (h : Alongside f (p :: q :: rest) (p' :: q' :: rest')) (hwidth : p.x < q.x)
    (hlt : q.x < q'.x) :
    p = p' ∧ OnLine p q' q ∧ Alongside f (q :: rest) (q :: q' :: rest') := by
  have hruns := h.traces.runs (p, q) List.mem_cons_self
  have hruns' := h.traces'.runs (p', q') List.mem_cons_self
  obtain ⟨rfl, hline⟩ := hruns.onLine hruns' h.start_eq hwidth hlt.le
  obtain ⟨hfirst, -⟩ := List.pairwise_cons.1 h.traces'.tail.ascending
  refine ⟨rfl, hline, h.traces.tail, ⟨?_, ?_⟩, rfl, h.stop⟩
  · refine List.pairwise_cons.2 ⟨?_, h.traces'.tail.ascending⟩
    exact List.forall_mem_cons.2 ⟨hlt.le, fun r hr => hlt.le.trans (hfirst r hr)⟩
  · rw [consecutive_cons_cons]
    refine List.forall_mem_cons.2 ⟨?_, h.traces'.tail.runs⟩
    exact hruns'.remainder hline (hwidth.trans hlt) hwidth.le

theorem reached (h : Alongside f (p :: q :: rest) (p' :: q' :: rest')) (hwidth : p.x < q.x)
    (heq : q.x = q'.x) : p = p' ∧ q = q' ∧ Alongside f (q :: rest) (q' :: rest') := by
  have hruns := h.traces.runs (p, q) List.mem_cons_self
  have hruns' := h.traces'.runs (p', q') List.mem_cons_self
  obtain ⟨rfl, hline⟩ := hruns.onLine hruns' h.start_eq hwidth heq.le
  have hq : q.y = q'.y := by
    unfold OnLine at hline
    rw [← heq, mul_comm] at hline
    exact sub_left_inj.1 (mul_left_cancel₀ (sub_pos.2 hwidth).ne' hline)
  obtain rfl : q = q' := corner_eq heq hq
  exact ⟨rfl, rfl, h.traces.tail, h.traces'.tail, rfl, h.stop⟩

/-- The same lies below corners along one function.  The lists are gone through
together: of two segments from one corner the longer one is divided at the end of
the other. -/
theorem lamina_eq (h : Alongside f corners corners') : lamina corners = lamina corners' := by
  -- every case passes a vertical segment or uses up the shorter of two segments
  induction hn : corners.length + corners'.length using Nat.strong_induction_on
    generalizing corners corners' with
  | _ n ih =>
    subst hn
    match corners, corners' with
    | [], [] => rfl
    | [], _ :: _ => cases h.start
    | _ :: _, [] => cases h.start
    | [p], [p'] => rfl
    | [p], p' :: q' :: rest' =>
        have hvertical := h.eq_of_singleton
        rw [lamina_of_vertical hvertical]
        exact ih _ (by simp) (h.symm.vertical hvertical).symm rfl
    | p :: q :: rest, [p'] =>
        have hvertical := h.symm.eq_of_singleton
        rw [lamina_of_vertical hvertical]
        exact ih _ (by simp) (h.vertical hvertical) rfl
    | p :: q :: rest, p' :: q' :: rest' =>
        by_cases hvertical : p.x = q.x
        · rw [lamina_of_vertical hvertical]
          exact ih _ (by simp) (h.vertical hvertical) rfl
        by_cases hvertical' : p'.x = q'.x
        · rw [lamina_of_vertical hvertical']
          exact ih _ (by simp) (h.symm.vertical hvertical').symm rfl
        have hwidth : p.x < q.x := lt_of_le_of_ne
          ((List.pairwise_cons.1 h.traces.ascending).1 q List.mem_cons_self) hvertical
        have hwidth' : p'.x < q'.x := lt_of_le_of_ne
          ((List.pairwise_cons.1 h.traces'.ascending).1 q' List.mem_cons_self) hvertical'
        rcases lt_trichotomy q.x q'.x with hlt | heq | hgt
        · obtain ⟨rfl, hline, hrest⟩ := h.divided hwidth hlt
          rw [← lamina_of_onLine hline rest']
          exact lamina_cons_congr p (ih _ (by simp) hrest rfl)
        · obtain ⟨rfl, rfl, hrest⟩ := h.reached hwidth heq
          exact lamina_cons_congr p (ih _ (by simp; omega) hrest rfl)
        · obtain ⟨rfl, hline, hrest⟩ := h.symm.divided hwidth' hgt
          rw [← lamina_of_onLine hline rest]
          exact lamina_cons_congr p' (ih _ (by simp) hrest.symm rfl)

end Alongside

/-- Two lists of corners in order that make one curve: it starts and stops at the
same places, and has the same heights. -/
structure SameCurve (corners corners' : List (Corner ℚ)) : Prop where
  ascending : corners.Pairwise fun p q => p.x ≤ q.x
  ascending' : corners'.Pairwise fun p q => p.x ≤ q.x
  start : corners.head?.map Corner.x = corners'.head?.map Corner.x
  stop : corners.getLast?.map Corner.x = corners'.getLast?.map Corner.x
  height : ∀ x, height? x corners = height? x corners'

theorem traces_height? (h : corners.Pairwise fun p q => p.x ≤ q.x) :
    Traces (fun x => (height? x corners).getD 0) corners where
  ascending := h
  runs s hs x hstart hstop := by
    have hc : Ordered (fun _ => False) id corners :=
      ⟨fun _ _ => not_false, fun _ _ => not_false, h⟩
    have hwidth : s.2.x - s.1.x ≠ 0 := (sub_pos.2 (hstart.trans hstop)).ne'
    change ((height? x corners).getD 0 - s.1.y) * (s.2.x - s.1.x) = (x - s.1.x) * (s.2.y - s.1.y)
    rw [hc.height?_of_mem_segment ranks hs not_false hstart hstop, Option.getD_some,
      add_sub_cancel_left, div_mul_cancel₀ _ hwidth]

theorem SameCurve.lamina_eq (h : SameCurve corners corners') : lamina corners = lamina corners' := by
  have htraces := traces_height? h.ascending
  have htraces' := traces_height? h.ascending'
  rw [← funext fun x => congrArg (Option.getD · 0) (h.height x)] at htraces'
  exact Alongside.lamina_eq ⟨htraces, htraces', h.start, h.stop⟩

/-- In exact arithmetic there is a center of gravity exactly if the areas of the
segments have a positive sum, and then it is the quotient of the integrals.  It
stays where it is if a sample is added on the line of a segment, and however else
the same curve is sampled. -/
theorem centerOfGravity?_eq_integral (places heights : List ℚ) :
    let curve := sampled places heights
    ((centerOfGravity? curve).isSome = true ↔ 0 < (segmentAreas curve).sum) ∧
    (0 < (segmentAreas curve).sum → centerOfGravity? curve =
      some (((consecutive curve).map fun s => (s.2.x - s.1.x) *
        (s.1.x * (2 * s.1.y + s.2.y) + s.2.x * (s.1.y + 2 * s.2.y)) / 6).sum /
          (segmentAreas curve).sum)) ∧
    (∀ (i : ℕ) (hi : i + 1 < curve.length) (v h : ℚ), OnLine curve[i] curve[i + 1] ⟨v, h⟩ →
      centerOfGravity? (sampled (places.insertIdx (i + 1) v) (heights.insertIdx (i + 1) h)) =
        centerOfGravity? curve) ∧
    ∀ curve', SameCurve curve curve' → centerOfGravity? curve' = centerOfGravity? curve := by
  intro curve
  refine ⟨?_, fun hpos => ?_, fun i hi v h hline => ?_, fun curve' hsame => ?_⟩
  · rw [centerOfGravity?_eq]
    split_ifs with hpos
    · exact iff_of_true rfl hpos
    · exact iff_of_false Bool.false_ne_true hpos
  · rw [centerOfGravity?_eq, if_pos hpos]
  · rw [sampled_insertIdx]
    exact centerOfGravity?_congr (lamina_insertIdx hi hline)
  · exact (centerOfGravity?_congr hsame.lamina_eq).symm

theorem centerOfGravity?_eq_integral_of_slopes :
    centerOfGravity? (sampled [0, 1, 1, 4] [0, 1, 1 / 2, 2] : List (Corner ℚ)) =
      some (130 / 51) ∧
    centerOfGravity? (sampled [0, 1, 1, 2, 4] [0, 1, 1 / 2, 1, 2] : List (Corner ℚ)) =
      some (130 / 51) := by
  obtain ⟨-, hvalue, hinserted, -⟩ := centerOfGravity?_eq_integral [0, 1, 1, 4] [0, 1, 1 / 2, 2]
  have hcenter : centerOfGravity? (sampled [0, 1, 1, 4] [0, 1, 1 / 2, 2] : List (Corner ℚ)) =
      some (130 / 51) :=
    (hvalue (by decide +kernel)).trans (by decide +kernel)
  have hline : OnLine (⟨1, 1 / 2⟩ : Corner ℚ) ⟨4, 2⟩ ⟨2, 1⟩ := by
    norm_num [OnLine]
  exact ⟨hcenter, (hinserted 2 (by decide) 2 1 hline).trans hcenter⟩

end FuzzyInference.Rational
