import FuzzyInference.Proofs.Crisp.Unclipped
import FuzzyInference.Proofs.Curve.Gravity

/-!
# What halves a curve

In exact arithmetic the running totals of what is not negative reach half of the
whole at one step only.  The bisector of areas divides the segment of that step
as the half divides its area, and the bisector of single heights is the position
at that step.
-/

namespace FuzzyInference.Rational

open Scalar Polyline

variable {xs : List ℚ} {target reached u : ℚ} {i j : ℕ} {curve : List (Corner ℚ)}

/-! ## Running totals -/

/-- The total of the numbers before the `i`-th is below the target, and with that
number it is not. -/
def ReachedAt (xs : List ℚ) (target : ℚ) (i : ℕ) : Prop :=
  (xs.take i).sum < target ∧ target ≤ (xs.take (i + 1)).sum

theorem sum_take_mono (hxs : ∀ x ∈ xs, 0 ≤ x) (hij : i ≤ j) :
    (xs.take i).sum ≤ (xs.take j).sum :=
  (List.take_sublist_take_left hij).sum_le_sum fun x hx => hxs x (List.mem_of_mem_take hx)

theorem sum_take_nonneg (hxs : ∀ x ∈ xs, 0 ≤ x) (i : ℕ) : 0 ≤ (xs.take i).sum :=
  List.sum_nonneg fun x hx => hxs x (List.mem_of_mem_take hx)

namespace ReachedAt

theorem lt_length (h : ReachedAt xs target i) : i < xs.length := by
  by_contra hge
  rw [not_lt] at hge
  have hlt := h.1.trans_le h.2
  rw [List.take_of_length_le hge, List.take_of_length_le (Nat.le_succ_of_le hge)] at hlt
  exact hlt.false

theorem unique (hxs : ∀ x ∈ xs, 0 ≤ x) (hi : ReachedAt xs target i)
    (hj : ReachedAt xs target j) : i = j := by
  have hnot {i j : ℕ} (hi : ReachedAt xs target i) (hj : ReachedAt xs target j) : ¬ i < j :=
    fun hlt => ((hi.2.trans (sum_take_mono hxs hlt)).trans_lt hj.1).false
  exact le_antisymm (not_lt.1 (hnot hj hi)) (not_lt.1 (hnot hi hj))

theorem zero_iff {x : ℚ} : ReachedAt (x :: xs) target 0 ↔ 0 < target ∧ target ≤ x := by
  simp [ReachedAt]

theorem succ_iff {x : ℚ} : ReachedAt (x :: xs) target (i + 1) ↔ ReachedAt xs (target - x) i := by
  rw [ReachedAt, ReachedAt, List.take_succ_cons, List.take_succ_cons, List.sum_cons, List.sum_cons,
    lt_sub_iff_add_lt', sub_le_iff_le_add']

theorem exists_of_le_sum (hpos : 0 < target) (hle : target ≤ xs.sum) :
    ∃ i, ReachedAt xs target i := by
  induction xs generalizing target with
  | nil => exact absurd hle hpos.not_ge
  | cons x xs ih =>
      by_cases hx : target ≤ x
      · exact ⟨0, zero_iff.2 ⟨hpos, hx⟩⟩
      · rw [List.sum_cons, ← sub_le_iff_le_add'] at hle
        obtain ⟨i, hi⟩ := ih (sub_pos.2 (not_le.1 hx)) hle
        exact ⟨i + 1, succ_iff.2 hi⟩

theorem existsUnique (hxs : ∀ x ∈ xs, 0 ≤ x) (hpos : 0 < target) (hle : target ≤ xs.sum) :
    ∃! i, ReachedAt xs target i := by
  obtain ⟨i, hi⟩ := exists_of_le_sum hpos hle
  exact ⟨i, hi, fun j hj => unique hxs hj hi⟩

theorem target_pos (hxs : ∀ x ∈ xs, 0 ≤ x) (h : ReachedAt xs target i) : 0 < target :=
  (sum_take_nonneg hxs i).trans_lt h.1

end ReachedAt

/-! ## Searches -/

theorem firstReaching?_of_reachedAt (hnonneg : ∀ p ∈ curve, 0 ≤ p.y)
    (h : ReachedAt (curve.map Corner.y) (target - reached) i) :
    ∃ p, curve[i]? = some p ∧ firstReaching? target reached curve = some p.x := by
  induction curve generalizing reached i with
  | nil => exact absurd h.lt_length (Nat.not_lt_zero i)
  | cons p curve ih =>
      obtain ⟨-, hrest⟩ := List.forall_mem_cons.1 hnonneg
      rw [firstReaching?]
      cases i with
      | zero =>
          have hle : target ≤ reached + p.y := sub_le_iff_le_add'.1 (ReachedAt.zero_iff.1 h).2
          exact ⟨p, rfl, if_pos hle⟩
      | succ i =>
          rw [List.map_cons, ReachedAt.succ_iff, sub_sub] at h
          have hlt := sub_pos.1 (h.target_pos (List.forall_mem_map.2 hrest))
          rw [if_neg hlt.not_ge]
          exact ih hrest h

theorem split?_of_reachedAt {segments : List (Corner ℚ × Corner ℚ)}
    (hnonneg : ∀ s ∈ segments, 0 ≤ segmentArea s.1 s.2)
    (h : ReachedAt (segments.map fun s => segmentArea s.1 s.2) (target - reached) i) :
    ∃ s, segments[i]? = some s ∧ split? target reached segments = some (s.1.x +
      (target - reached - ((segments.map fun s => segmentArea s.1 s.2).take i).sum) *
        (s.2.x - s.1.x) / segmentArea s.1 s.2) := by
  induction segments generalizing reached i with
  | nil => exact absurd h.lt_length (Nat.not_lt_zero i)
  | cons s segments ih =>
      obtain ⟨-, hrest⟩ := List.forall_mem_cons.1 hnonneg
      rw [split?]
      cases i with
      | zero =>
          obtain ⟨hpos, hle⟩ := ReachedAt.zero_iff.1 h
          have hlt : reached < target := sub_pos.1 hpos
          have hle : target ≤ reached + segmentArea s.1 s.2 := sub_le_iff_le_add'.1 hle
          refine ⟨s, rfl, ?_⟩
          rw [if_pos hle, add_sub_cancel_right, height?_pair hlt hle, List.take_zero, List.sum_nil,
            sub_zero, add_sub_cancel_left]
      | succ i =>
          rw [List.map_cons, ReachedAt.succ_iff, sub_sub] at h
          have hlt := sub_pos.1 (h.target_pos (List.forall_mem_map.2 hrest))
          obtain ⟨t, ht, hsplit⟩ := ih hrest h
          refine ⟨t, ht, ?_⟩
          have hleft (area before : ℚ) :
              target - reached - (area + before) = target - (reached + area) - before := by ring
          rw [if_neg hlt.not_ge, hsplit, List.map_cons, List.take_succ_cons, List.sum_cons, hleft]

structure OverAxis (curve : List (Corner ℚ)) : Prop where
  ascending : curve.Pairwise fun p q => p.x < q.x
  nonneg : ∀ p ∈ curve, 0 ≤ p.y

theorem overAxis_curve (domain : Domain) (group : List (Activation ℚ)) :
    OverAxis (Aggregate.curve domain group) :=
  ⟨pairwise_curve domain group, List.forall_mem_map.2 fun x _ => height_nonneg group x⟩

/-! ## Single heights -/

def weightBelow (curve : List (Corner ℚ)) (u : ℚ) : ℚ :=
  ((curve.filter fun p => p.x < u).map Corner.y).sum

def weightUpTo (curve : List (Corner ℚ)) (u : ℚ) : ℚ :=
  ((curve.filter fun p => p.x ≤ u).map Corner.y).sum

/-- A position of a curve before which there is less than half of the total, and
up to which there is no less than half. -/
structure HalvesWeight (curve : List (Corner ℚ)) (u : ℚ) : Prop where
  known : ∃ p ∈ curve, p.x = u
  below : weightBelow curve u < (curve.map Corner.y).sum / 2
  upTo : (curve.map Corner.y).sum / 2 ≤ weightUpTo curve u

theorem filter_eq_take (hascending : curve.Pairwise fun p q => p.x < q.x) {p : Corner ℚ}
    (hi : curve[i]? = some p) :
    (curve.filter fun q => q.x < p.x) = curve.take i ∧
      (curve.filter fun q => q.x ≤ p.x) = curve.take (i + 1) := by
  induction curve generalizing i with
  | nil => cases hi
  | cons q curve ih =>
      obtain ⟨hfirst, hrest⟩ := List.pairwise_cons.1 hascending
      cases i with
      | zero =>
          cases hi
          have hbelow : (curve.filter fun r => r.x < p.x) = [] :=
            List.filter_eq_nil_iff.2 fun r hr => by simpa using (hfirst r hr).le
          have hupTo : (curve.filter fun r => r.x ≤ p.x) = [] :=
            List.filter_eq_nil_iff.2 fun r hr => by simpa using hfirst r hr
          simp [hbelow, hupTo]
      | succ i =>
          rw [List.getElem?_cons_succ] at hi
          have hlt : q.x < p.x := hfirst p (List.mem_of_getElem? hi)
          obtain ⟨hbelow, hupTo⟩ := ih hrest hi
          rw [List.filter_cons_of_pos (by simpa using hlt),
            List.filter_cons_of_pos (by simpa using hlt.le), hbelow, hupTo]
          exact ⟨rfl, rfl⟩

namespace OverAxis

variable (h : OverAxis curve)

include h

theorem halvesWeight_iff {p : Corner ℚ} (hi : curve[i]? = some p) : HalvesWeight curve p.x ↔
    ReachedAt (curve.map Corner.y) ((curve.map Corner.y).sum / 2) i := by
  obtain ⟨hbelow, hupTo⟩ := filter_eq_take h.ascending hi
  have hsums : weightBelow curve p.x = ((curve.map Corner.y).take i).sum ∧
      weightUpTo curve p.x = ((curve.map Corner.y).take (i + 1)).sum := by
    rw [weightBelow, weightUpTo, hbelow, hupTo, List.map_take, List.map_take]
    exact ⟨rfl, rfl⟩
  rw [ReachedAt, ← hsums.1, ← hsums.2]
  constructor
  · exact fun hu => ⟨hu.below, hu.upTo⟩
  · exact fun hu => ⟨⟨p, List.mem_of_getElem? hi, rfl⟩, hu.1, hu.2⟩

theorem weight_pos (hrises : ∃ p ∈ curve, ¬ (p.y == 0) = true) :
    0 < (curve.map Corner.y).sum := by
  obtain ⟨p, hp, hy⟩ := hrises
  have hpos : 0 < p.y := lt_of_le_of_ne (h.nonneg p hp) fun hzero => hy (beq_iff_eq.2 hzero.symm)
  exact hpos.trans_le
    (List.single_le_sum (List.forall_mem_map.2 h.nonneg) _ (List.mem_map_of_mem hp))

theorem existsUnique_halvesWeight (hpos : 0 < (curve.map Corner.y).sum) :
    ∃! u, HalvesWeight curve u := by
  obtain ⟨i, hi, hunique⟩ :=
    ReachedAt.existsUnique (List.forall_mem_map.2 h.nonneg) (half_pos hpos) (half_le_self hpos.le)
  obtain ⟨p, hp⟩ : ∃ p, curve[i]? = some p :=
    ⟨_, List.getElem?_eq_getElem (by simpa using hi.lt_length)⟩
  refine ⟨p.x, (h.halvesWeight_iff hp).2 hi, fun u hu => ?_⟩
  obtain ⟨q, hq, rfl⟩ := hu.known
  obtain ⟨j, hj⟩ := List.mem_iff_getElem?.1 hq
  obtain rfl := hunique j ((h.halvesWeight_iff hj).1 hu)
  rw [Option.some.inj (hj.symm.trans hp)]

theorem discreteBisector?_of_halvesWeight (hu : HalvesWeight curve u) :
    discreteBisector? curve = some u := by
  obtain ⟨p, hp, rfl⟩ := hu.known
  obtain ⟨i, hi⟩ := List.mem_iff_getElem?.1 hp
  have hreached := (h.halvesWeight_iff hi).1 hu
  rw [← sub_zero ((curve.map Corner.y).sum / 2)] at hreached
  obtain ⟨q, hq, hfound⟩ := firstReaching?_of_reachedAt h.nonneg hreached
  rw [discreteBisector?, sum_eq, two_eq, hfound, Option.some.inj (hq.symm.trans hi)]

end OverAxis

/-! ## Areas -/

def areaBefore (curve : List (Corner ℚ)) (i : ℕ) : ℚ := ((segmentAreas curve).take i).sum

def HalvedIn (curve : List (Corner ℚ)) (i : ℕ) : Prop :=
  areaBefore curve i < (segmentAreas curve).sum / 2 ∧
    (segmentAreas curve).sum / 2 ≤ areaBefore curve (i + 1)

/-- The number in the `i`-th segment that divides it as the half divides its area,
with no more than half of the area below the segments on either side. -/
structure HalvesArea (curve : List (Corner ℚ)) (i : ℕ) (v : ℚ) : Prop where
  place : ∃ p q, (consecutive curve)[i]? = some (p, q) ∧ v ∈ Set.Ioc p.x q.x ∧
    v = p.x + ((segmentAreas curve).sum / 2 - areaBefore curve i) * (q.x - p.x) /
      (areaBefore curve (i + 1) - areaBefore curve i)
  before : ((segmentAreas curve).take i).sum ≤ (segmentAreas curve).sum / 2
  after : ((segmentAreas curve).drop (i + 1)).sum ≤ (segmentAreas curve).sum / 2

theorem areaBefore_succ {s : Corner ℚ × Corner ℚ} (hi : (consecutive curve)[i]? = some s) :
    areaBefore curve (i + 1) = areaBefore curve i + segmentArea s.1 s.2 := by
  obtain ⟨hlt, rfl⟩ := List.getElem?_eq_some_iff.1 hi
  have hlt' : i < (segmentAreas curve).length := by rwa [segmentAreas, List.length_map]
  rw [areaBefore, areaBefore, List.sum_take_succ _ i hlt']
  simp only [segmentAreas, List.getElem_map]

theorem HalvedIn.sum_drop_le (h : HalvedIn curve i) :
    ((segmentAreas curve).drop (i + 1)).sum ≤ (segmentAreas curve).sum / 2 := by
  have hsplit := List.sum_take_add_sum_drop (segmentAreas curve) (i + 1)
  have hreached : (segmentAreas curve).sum / 2 ≤ ((segmentAreas curve).take (i + 1)).sum := h.2
  linarith

namespace OverAxis

variable (h : OverAxis curve)

include h

theorem lt_of_mem_consecutive {s : Corner ℚ × Corner ℚ} (hs : s ∈ consecutive curve) :
    s.1.x < s.2.x :=
  have : IsTrans (Corner ℚ) fun p q => p.x < q.x := ⟨fun _ _ _ => lt_trans⟩
  pairwise_iff_consecutive.1 h.ascending s hs

theorem segmentArea_nonneg {s : Corner ℚ × Corner ℚ} (hs : s ∈ consecutive curve) :
    0 ≤ segmentArea s.1 s.2 := by
  obtain ⟨hp, hq⟩ := mem_of_mem_consecutive hs
  have hwidth := sub_nonneg.2 (h.lt_of_mem_consecutive hs).le
  rw [segmentArea, two_eq]
  exact div_nonneg (mul_nonneg (add_nonneg (h.nonneg _ hp) (h.nonneg _ hq)) hwidth) zero_le_two

theorem existsUnique_halvedIn (hpos : 0 < (segmentAreas curve).sum) : ∃! i, HalvedIn curve i :=
  ReachedAt.existsUnique (List.forall_mem_map.2 fun _ => h.segmentArea_nonneg)
    (half_pos hpos) (half_le_self hpos.le)

/-- Half of the area is found in the segment where it is reached. -/
theorem exists_split?_of_halvedIn (hi : HalvedIn curve i) : ∃ v, HalvesArea curve i v ∧
    split? ((segmentAreas curve).sum / 2) 0 (consecutive curve) = some v := by
  have hreached : ReachedAt (segmentAreas curve) ((segmentAreas curve).sum / 2 - 0) i := by
    rwa [sub_zero]
  obtain ⟨⟨p, q⟩, hpq, hsplit⟩ :=
    split?_of_reachedAt (fun _ => h.segmentArea_nonneg) hreached
  have hwidth : p.x < q.x := h.lt_of_mem_consecutive (List.mem_of_getElem? hpq)
  have hsucc : areaBefore curve (i + 1) - areaBefore curve i = segmentArea p q := by
    rw [areaBefore_succ hpq, add_sub_cancel_left]
  -- the half leaves some of the area of the segment behind and no more than all
  have hbehind : 0 < (segmentAreas curve).sum / 2 - areaBefore curve i := sub_pos.2 hi.1
  have hall : (segmentAreas curve).sum / 2 - areaBefore curve i ≤ segmentArea p q := by
    rw [← hsucc]
    exact sub_le_sub_right hi.2 _
  have harea : 0 < segmentArea p q := hbehind.trans_le hall
  rw [sub_zero] at hsplit
  refine ⟨_, ⟨⟨p, q, hpq, ⟨?_, ?_⟩, by rw [hsucc]; rfl⟩, hi.1.le, hi.sum_drop_le⟩, hsplit⟩
  · exact lt_add_of_pos_right _ (div_pos (mul_pos hbehind (sub_pos.2 hwidth)) harea)
  · rw [← le_sub_iff_add_le', div_le_iff₀ harea, mul_comm]
    exact mul_le_mul_of_nonneg_left hall (sub_pos.2 hwidth).le

/-- The search for half of an area finds it, so nothing stands in for it. -/
theorem exists_continuousBisector? (hpos : 0 < (segmentAreas curve).sum) (hi : HalvedIn curve i) :
    ∃ v, HalvesArea curve i v ∧
      split? ((segmentAreas curve).sum / 2) 0 (consecutive curve) = some v ∧
      continuousBisector? curve = some v := by
  obtain ⟨v, hv, hsplit⟩ := h.exists_split?_of_halvedIn hi
  refine ⟨v, hv, hsplit, ?_⟩
  rw [continuousBisector?, sum_eq, two_eq, if_neg (half_pos hpos).not_ge, hsplit]
  rfl

end OverAxis

/-! ## Groups -/

theorem rises_of_weight (hpos : 0 < (curve.map Corner.y).sum) :
    ∃ p ∈ curve, ¬ (p.y == 0) = true := by
  by_contra hflat
  push Not at hflat
  exact hpos.ne' (List.sum_eq_zero (List.forall_mem_map.2 fun p hp => eq_of_beq (hflat p hp)))

theorem rises_of_area (hpos : 0 < (segmentAreas curve).sum) :
    ∃ p ∈ curve, ¬ (p.y == 0) = true := by
  by_contra hflat
  push Not at hflat
  refine hpos.ne' (List.sum_eq_zero (List.forall_mem_map.2 fun s hs => ?_))
  obtain ⟨hp, hq⟩ := mem_of_mem_consecutive hs
  rw [segmentArea, eq_of_beq (hflat _ hp), eq_of_beq (hflat _ hq), add_zero, zero_mul, zero_div]

/-- In exact arithmetic the bisector splits a curve in half.  Of a curve with an
area there is one segment in which half of the area is reached, and the number
read off divides that segment: the search never runs out of segments.  Of heights
that stand alone there is one position at which half of them is reached, and that
is read off.  Both are the values of groups. -/
theorem bisector_splits_in_half :
    (∀ curve : List (Corner ℚ), OverAxis curve →
      (0 < (segmentAreas curve).sum →
        (∃! i, HalvedIn curve i) ∧ ∀ i, HalvedIn curve i → ∃ v, HalvesArea curve i v ∧
          split? ((segmentAreas curve).sum / 2) 0 (consecutive curve) = some v ∧
          Method.bisector.read? .continuous curve = some v) ∧
      (0 < (curve.map Corner.y).sum →
        (∃! u, HalvesWeight curve u) ∧
          ∀ u, HalvesWeight curve u → Method.bisector.read? .discrete curve = some u)) ∧
    ∀ (group : List (Activation ℚ)) (s : Label), groupSubject group = .ok s →
      (groupDomain? group = some .continuous →
        0 < (segmentAreas (Aggregate.curve .continuous group)).sum →
          ∃ i v, HalvesArea (Aggregate.curve .continuous group) i v ∧
            HalvedIn (Aggregate.curve .continuous group) i ∧
            Method.bisector.defuzzify group = .ok ⟨s, v⟩) ∧
      (groupDomain? group = some .discrete →
        0 < ((Aggregate.curve .discrete group).map Corner.y).sum →
          ∃ u, HalvesWeight (Aggregate.curve .discrete group) u ∧
            Method.bisector.defuzzify group = .ok ⟨s, u⟩) := by
  constructor
  · intro curve h
    exact ⟨fun hpos => ⟨h.existsUnique_halvedIn hpos, fun i => h.exists_continuousBisector? hpos⟩,
      fun hpos => ⟨h.existsUnique_halvesWeight hpos, fun u => h.discreteBisector?_of_halvesWeight⟩⟩
  · intro group s hs
    constructor
    · intro hdomain hpos
      have h := overAxis_curve .continuous group
      obtain ⟨i, hi, -⟩ := h.existsUnique_halvedIn hpos
      obtain ⟨v, hv, -, hread⟩ := h.exists_continuousBisector? hpos hi
      exact ⟨i, v, hv, hi, Defuzzifier.merging_eq_ok hs hdomain (rises_of_area hpos) hread⟩
    · intro hdomain hpos
      have h := overAxis_curve .discrete group
      obtain ⟨u, hu, -⟩ := h.existsUnique_halvesWeight hpos
      exact ⟨u, hu, Defuzzifier.merging_eq_ok hs hdomain (rises_of_weight hpos)
        (h.discreteBisector?_of_halvesWeight hu)⟩

private theorem steepFall_area : ∃ a s, steepFall = .ok a ∧ groupSubject [a] = .ok s ∧
    groupDomain? [a] = some .continuous ∧
      0 < (segmentAreas (Aggregate.curve .continuous [a])).sum := by
  have hrun : (steepFall.toOption.any fun a : Activation ℚ =>
      (groupSubject [a]).toOption.isSome && groupDomain? [a] == some .continuous &&
        match a.set.shape with
        | .graph kind c _ => kind == .triangle && decide (c.lower < c.upper) &&
            decide (0 < (lamina c.corners).area) && decide (c.highest ≤ a.strength)
        | .singleton _ => false) = true := by
    decide +kernel
  obtain ⟨a, ha, hrun⟩ := (Option.any_eq_true _ _).1 hrun
  rw [Bool.and_eq_true, Bool.and_eq_true, beq_iff_eq, Option.isSome_iff_exists] at hrun
  obtain ⟨⟨⟨s, hs⟩, hdomain⟩, hrun⟩ := hrun
  split at hrun
  · next kind c fits hshape =>
      simp only [Bool.and_eq_true, beq_iff_eq, decide_eq_true_eq] at hrun
      obtain ⟨⟨⟨rfl, hwide⟩, harea⟩, hstrength⟩ := hrun
      rw [← lamina_unclipped hshape (exposed_of_isTriangle fits hwide) hstrength,
        lamina_area_eq] at harea
      exact ⟨a, s, Fallible.toOption_eq_some.1 ha, Fallible.toOption_eq_some.1 hs, hdomain, harea⟩
  · cases hrun

def tipsAt (amounts : List (ℚ × ℚ)) : Except (Fault ℚ) (List (Activation ℚ)) := do
  let tip ← Label.named "tip"
  amounts.mapM fun (support, strength) => do
    return ⟨tip, ← FuzzySet.named "flat" (← Shape.ofSupport support), ← Degree.ofScalar strength⟩

private theorem tipsAt_weight : ∃ group s,
    tipsAt [(13, 1 / 2), (25, 1), (0, 1 / 4)] = .ok group ∧ groupSubject group = .ok s ∧
      groupDomain? group = some .discrete ∧
        0 < ((Aggregate.curve .discrete group).map Corner.y).sum := by
  have hrun : ((tipsAt [(13, 1 / 2), (25, 1), (0, 1 / 4)]).toOption.any fun group =>
      (groupSubject group).toOption.isSome && groupDomain? group == some .discrete &&
        (group.any fun a => 25 ∈ a.set.shape.positions) &&
          Aggregate.height group 25 != 0) = true := by
    decide +kernel
  simp only [Option.any_eq_true, Bool.and_eq_true, Fallible.toOption_eq_some,
    Option.isSome_iff_exists, List.any_eq_true, beq_iff_eq, bne_iff_ne, decide_eq_true_eq] at hrun
  obtain ⟨group, hgroup, ⟨⟨⟨s, hs⟩, hdomain⟩, ha⟩, hheight⟩ := hrun
  have hrises : ∃ p ∈ Aggregate.curve .discrete group, ¬ (p.y == 0) = true :=
    ⟨_, List.mem_map_of_mem (mem_positions_discrete.2 ha), mt beq_iff_eq.1 hheight⟩
  exact ⟨group, s, hgroup, hs, hdomain, (overAxis_curve .discrete group).weight_pos hrises⟩

/-- The first segment of the curve has no area. -/
theorem bisector_splits_in_half_of_groups :
    Method.bisector.read? .continuous [⟨0, 0⟩, ⟨1, 0⟩, ⟨2, 1⟩, ⟨4, 1⟩] = some (11 / 4 : ℚ) ∧
    Method.bisector.read? .discrete [⟨0, 1 / 4⟩, ⟨13, 1 / 2⟩, ⟨25, 1⟩] = some (25 : ℚ) ∧
    (∃ a o, steepFall = .ok a ∧ Method.bisector.defuzzify [a] = .ok o) ∧
    ∃ group o, tipsAt [(13, 1 / 2), (25, 1), (0, 1 / 4)] = .ok group ∧
      Method.bisector.defuzzify group = .ok o := by
  obtain ⟨hcurves, hgroups⟩ := bisector_splits_in_half
  refine ⟨?_, ?_, ?_, ?_⟩
  · have hover : OverAxis [(⟨0, 0⟩ : Corner ℚ), ⟨1, 0⟩, ⟨2, 1⟩, ⟨4, 1⟩] :=
      ⟨by decide +kernel, by decide +kernel⟩
    obtain ⟨-, hread⟩ := (hcurves _ hover).1 (by decide +kernel)
    obtain ⟨v, hv, -, hread⟩ := hread 2 ⟨by decide +kernel, by decide +kernel⟩
    obtain ⟨p, q, hpq, -, hplace⟩ := hv.place
    cases hpq
    rw [hread, hplace]
    decide +kernel
  · have hover : OverAxis [(⟨0, 1 / 4⟩ : Corner ℚ), ⟨13, 1 / 2⟩, ⟨25, 1⟩] :=
      ⟨by decide +kernel, by decide +kernel⟩
    obtain ⟨-, hread⟩ := (hcurves _ hover).2 (by decide +kernel)
    exact hread 25 ⟨⟨⟨25, 1⟩, by simp, rfl⟩, by decide +kernel, by decide +kernel⟩
  · obtain ⟨a, s, ha, hs, hdomain, harea⟩ := steepFall_area
    obtain ⟨i, v, -, -, hvalue⟩ := (hgroups [a] s hs).1 hdomain harea
    exact ⟨a, _, ha, hvalue⟩
  · obtain ⟨group, s, hgroup, hs, hdomain, hweight⟩ := tipsAt_weight
    obtain ⟨u, -, hvalue⟩ := (hgroups group s hs).2 hdomain hweight
    exact ⟨group, _, hgroup, hvalue⟩

end FuzzyInference.Rational
