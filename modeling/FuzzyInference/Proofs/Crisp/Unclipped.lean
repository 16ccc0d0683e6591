import FuzzyInference.Proofs.Crisp.Hull
import FuzzyInference.Proofs.Curve.Exposed

/-!
# A set that is not clipped

In exact arithmetic a single set that is concluded at least as strongly as it is
high is merged into itself.  Its points are among the positions at which it is
sampled, and the others lie on its segments.  So the center of gravity of the
samples is the centroid of the set, which is also its weighted average.
-/

namespace FuzzyInference

/-- The ends of a standard shape stand apart, and all points of any other. -/
def CurveKind.Spreads : CurveKind → Curve ℚ → Prop
  | polyline, c => c.points.Pairwise fun p q => p.x < q.x
  | triangle, c => c.lower < c.upper
  | trapezoid, c => c.lower < c.upper

namespace Rational

open Scalar Polyline Aggregate

variable {a : Activation ℚ} {kind : CurveKind} {c : Curve ℚ} {fits : kind.Fits c} {x : ℚ}

theorem exposed_of_spreads (fits : kind.Fits c) (h : kind.Spreads c) : Exposed c := by
  cases kind with
  | polyline => exact exposed_of_pairwise h
  | triangle => exact exposed_of_isTriangle fits h
  | trapezoid => exact exposed_of_isTrapezoid fits h

/-! ## The merged curve -/

/-- Nothing is clipped off a set that is concluded as strongly as it is high. -/
theorem height_unclipped (h : a.set.shape.highest ≤ a.strength) (x : ℚ) :
    height [a] x = (a.set.membership x).value := by
  have hle : (a.set.membership x).value ≤ a.strength.value :=
    le_trans (ranks.membership_le_highest a.set.shape x) h
  change larger 0 (a.clipped x).value = _
  rw [larger_eq, max_eq_right (a.clipped x).nonneg, Activation.clipped, value_min, min_eq_right hle]

section Samples

variable (hshape : a.set.shape = .graph kind c fits)

include hshape

theorem mem_positions_single (hx : x ∈ positions .continuous [a]) : x ∈ Set.Icc c.lower c.upper := by
  have henclosed : Enclosed c.lower c.upper [a] := by
    intro b hb
    rw [List.mem_singleton.1 hb, FuzzySet.lower, FuzzySet.upper, hshape]
    exact ⟨le_rfl, le_rfl⟩
  have hmem : (⟨x, height [a] x⟩ : Corner ℚ) ∈ curve .continuous [a] := List.mem_map_of_mem hx
  exact (henclosed.confined_curve .continuous).within _ hmem

theorem position_of_point {p : Point ℚ} (hp : p ∈ c.points) : p.x ∈ positions .continuous [a] := by
  refine mem_positions_continuous.2 (.inl ⟨a, List.mem_singleton_self a, ?_⟩)
  rw [hshape]
  exact List.mem_map_of_mem hp

/-- The positions of a single set start at its first point, and sample its curve
from there on. -/
theorem exists_refines (h : Exposed c) {p : Point ℚ} {rest : List (Point ℚ)}
    (hpoints : c.points = p :: rest) :
    ∃ xs, positions .continuous [a] = p.x :: xs ∧
      Refines (fun x => (c.membership x).value) p.corner (rest.map Point.corner) xs := by
  have hcorners : c.corners = p.corner :: rest.map Point.corner := by
    rw [Curve.corners, hpoints, List.map_cons]
  have hlower : c.lower = p.x := by simp [Curve.lower, hpoints]
  have hposition : ∀ q ∈ p :: rest, q.x ∈ positions .continuous [a] := by
    rw [← hpoints]
    exact fun q hq => position_of_point hshape hq
  have hwithin : ∀ x ∈ positions .continuous [a], p.x ≤ x ∧ x ≤ c.last.x := by
    intro x hx
    rw [← hlower]
    exact mem_positions_single hshape hx
  have hascending : (positions .continuous [a]).Pairwise (· < ·) := pairwise_sortedDistinct _
  generalize positions .continuous [a] = places at hposition hwithin hascending ⊢
  cases places with
  | nil => exact absurd (hposition p List.mem_cons_self) List.not_mem_nil
  | cons x xs =>
      obtain ⟨hfirst, -⟩ := List.pairwise_cons.1 hascending
      obtain rfl : x = p.x := by
        rcases List.mem_cons.1 (hposition p List.mem_cons_self) with heq | hlater
        · exact heq.symm
        · exact absurd (hwithin x List.mem_cons_self).1 (hfirst _ hlater).not_ge
      refine ⟨xs, rfl, ?_, hascending, ?_, fun x hx => ?_⟩
      · rw [← hcorners]
        exact fun s => h.straight
      · exact List.forall_mem_map.2 fun q hq => hposition q (List.mem_cons_of_mem _ hq)
      · -- the last point is not the first, because it is not before the place
        have hle := (hwithin x (List.mem_cons_of_mem _ hx)).2
        have hlast := c.last_mem
        rw [hpoints] at hlast
        rcases List.mem_cons.1 hlast with heq | hlater
        · exact absurd (hfirst x hx) (heq ▸ hle).not_gt
        · exact ⟨_, List.mem_map_of_mem hlater, hle⟩

theorem lamina_unclipped (h : Exposed c) (hstrength : c.highest ≤ a.strength) :
    lamina (curve .continuous [a]) = lamina c.corners := by
  obtain ⟨p, rest, hpoints⟩ := List.exists_cons_of_ne_nil c.ne_nil
  obtain ⟨xs, hpositions, hrefines⟩ := exists_refines hshape h hpoints
  have hheight (x : ℚ) : height [a] x = (c.membership x).value := by
    rw [height_unclipped (by rwa [hshape]), FuzzySet.membership, hshape]
    rfl
  rw [curve, funext hheight, hpositions, Curve.corners, hpoints]
  exact hrefines.lamina_sampledAt

end Samples

/-! ## Values -/

theorem exists_height_unclipped (hshape : a.set.shape = .graph kind c fits)
    (hhighest : 0 < c.highest.value) (hstrength : c.highest ≤ a.strength) :
    ∃ p ∈ curve .continuous [a], ¬ (p.y == 0) = true := by
  obtain ⟨p, hp, hle⟩ := ranks.exists_highest c
  have hpeak : c.highest.value ≤ (c.membership p.x).value :=
    le_trans hle (ranks.le_membership hp not_false rfl)
  refine ⟨_, List.mem_map_of_mem (position_of_point hshape hp), ?_⟩
  rw [height_unclipped (by rwa [hshape]), FuzzySet.membership, hshape, beq_iff_eq]
  exact (hhighest.trans_le hpeak).ne'

/-- In exact arithmetic a single set that is concluded at least as strongly as it
is high is worth its centroid, to the center of gravity of its samples as well
as to the weighted average. -/
theorem defuzzify_unclipped (hshape : a.set.shape = .graph kind c fits) (hspreads : kind.Spreads c)
    (hhighest : 0 < c.highest.value) (harea : 0 < (lamina c.corners).area)
    (hstrength : c.highest ≤ a.strength) :
    (Defuzzifier.merging .centroid).defuzzify [a] = .ok ⟨a.subject, a.set.centroid⟩ ∧
      Defuzzifier.weightedAverage.defuzzify [a] = .ok ⟨a.subject, a.set.centroid⟩ := by
  have hpositive : 0 < a.strength.value := hhighest.trans_le hstrength
  have hsubject : groupSubject [a] = .ok a.subject := by
    have hfires : ¬ ([a].all fun a => a.strength.isZero) = true := by
      simp [isZero_iff, hpositive.ne']
    rw [groupSubject_of_forall (List.cons_ne_nil _ _) (List.forall_mem_singleton.2 rfl),
      if_neg hfires]
  constructor
  · have hdomain : groupDomain? [a] = some .continuous := by
      simp [groupDomain?, hshape, Shape.isSingleton]
    have hcenter : centerOfGravity? (curve .continuous [a]) = some a.set.centroid := by
      rw [FuzzySet.centroid, hshape, Shape.centroid, Curve.centroid]
      simp only [centerOfGravity?, if_pos harea, Option.getD_some,
        lamina_unclipped hshape (exposed_of_spreads fits hspreads) hstrength]
    apply Defuzzifier.merging_eq_ok hsubject hdomain
      (exists_height_unclipped hshape hhighest hstrength)
    rw [Method.read?, centroid?, hcenter]
    rfl
  · have hmean : weightedMean? ([a].map fun a => (a.set.centroid, a.strength.value)) =
        some a.set.centroid := by
      rw [weightedMean?_eq]
      simp [hpositive, hpositive.ne']
    rw [Defuzzifier.defuzzify_eq, hsubject]
    change Defuzzifier.weightedAverage.outcomeOn [a] a.subject = _
    rw [Defuzzifier.outcomeOn, hmean]
    rfl

def steepFall : Except (Fault ℚ) (Activation ℚ) := do
  let tip ← Label.named "tip"
  let high ← Degree.ofScalar (1 / 2)
  let steep ← FuzzySet.named "steep" (← Shape.ofTriangle 0 0 3 (← Degree.ofScalar (1 / 4)) high)
  return ⟨tip, steep, high⟩

theorem defuzzify_unclipped_of_steepFall : ∃ a, steepFall = .ok a ∧
    (Defuzzifier.merging .centroid).defuzzify [a] = .ok ⟨a.subject, a.set.centroid⟩ ∧
      Defuzzifier.weightedAverage.defuzzify [a] = .ok ⟨a.subject, a.set.centroid⟩ ∧
      a.set.centroid = 4 / 3 := by
  have hrun : (steepFall.toOption.any fun a =>
      match a.set.shape with
      | .graph kind c _ => kind == .triangle && decide (c.lower < c.upper) &&
          decide (0 < c.highest.value) && decide (0 < (lamina c.corners).area) &&
          decide (c.highest ≤ a.strength) && a.set.centroid == 4 / 3
      | .singleton _ => false) = true := by
    decide +kernel
  obtain ⟨a, ha, hrun⟩ := (Option.any_eq_true _ _).1 hrun
  split at hrun
  · next kind c fits hshape =>
      simp only [Bool.and_eq_true, beq_iff_eq, decide_eq_true_eq] at hrun
      obtain ⟨⟨⟨⟨⟨rfl, hwide⟩, hhighest⟩, harea⟩, hstrength⟩, hcentroid⟩ := hrun
      obtain ⟨hmerged, haverage⟩ := defuzzify_unclipped hshape hwide hhighest harea hstrength
      exact ⟨a, Fallible.toOption_eq_some.1 ha, hmerged, haverage, hcentroid⟩
  · cases hrun

end Rational

end FuzzyInference
