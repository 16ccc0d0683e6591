import FuzzyInference.Proofs.Crisp.Exact
import FuzzyInference.Proofs.Crisp.Groups
import FuzzyInference.Proofs.Curve.Rescaling

/-!
# Groups in other units

In exact arithmetic every reading of a curve moves with the units that the curve
is measured in.  So a group whose sets are measured in other units is accepted
or refused as before, and its value is the old one in the new units.
-/

namespace FuzzyInference

open Scalar Polyline Fallible

/-! ## Readings -/

namespace Rescaling

variable (u : Rescaling) (curve : List (Corner ℚ)) {xs : List ℚ}

theorem weightedMean?_map (weighted : List (ℚ × ℚ)) :
    weightedMean? (weighted.map fun p => (u p.1, p.2)) = (weightedMean? weighted).map u := by
  have hweight : ((weighted.map fun p => (u p.1, p.2)).map Prod.snd) = weighted.map Prod.snd := by
    rw [List.map_map]
    rfl
  have hmoment : ((weighted.map fun p => (u p.1, p.2)).map fun p => p.1 * p.2).sum =
      u.scale * (weighted.map fun p => p.1 * p.2).sum + u.shift * (weighted.map Prod.snd).sum := by
    rw [List.map_map, ← List.sum_map_mul_left, ← List.sum_map_mul_left, ← List.sum_map_add]
    congr 2
    funext p
    simp only [Function.comp_apply, apply]
    ring
  rw [Rational.weightedMean?_eq, Rational.weightedMean?_eq, hweight, hmoment]
  split_ifs with hpos
  · rw [Option.map_some, apply]
    field_simp
  · rfl

theorem mean?_map (xs : List ℚ) : mean? (xs.map u) = (mean? xs).map u := by
  rw [Rational.mean?_eq, Rational.mean?_eq]
  by_cases hnil : xs = []
  · rw [hnil]
    rfl
  · rw [if_neg hnil, if_neg (mt List.map_eq_nil_iff.1 hnil), u.sum_div_length hnil,
      Option.map_some]

theorem heights_move : (curve.map (Corner.move u)).map Corner.y = curve.map Corner.y := by
  rw [List.map_map]
  rfl

theorem highestPositions_move :
    highestPositions (curve.map (Corner.move u)) = (highestPositions curve).map u := by
  unfold highestPositions
  rw [heights_move]
  cases greatest? (curve.map Corner.y) with
  | none => rfl
  | some highest =>
      dsimp only
      rw [List.filter_map, List.map_map, List.map_map]
      rfl

theorem firstReaching?_move (target reached : ℚ) :
    firstReaching? target reached (curve.map (Corner.move u)) =
      (firstReaching? target reached curve).map u := by
  induction curve generalizing reached with
  | nil => rfl
  | cons p curve ih =>
      rw [List.map_cons, firstReaching?, firstReaching?, ih]
      change (if target ≤ reached + p.y then _ else _) = _
      split_ifs <;> rfl

theorem split?_move (target reached : ℚ) (segments : List (Corner ℚ × Corner ℚ)) :
    split? (u.linear target) (u.linear reached)
        (segments.map (Prod.map (Corner.move u) (Corner.move u))) =
      (split? target reached segments).map u := by
  induction segments generalizing reached with
  | nil => rfl
  | cons s segments ih =>
      obtain ⟨p, q⟩ := s
      have htotal : u.linear reached + segmentArea (p.move u) (q.move u) =
          u.linear (reached + segmentArea p q) := by
        rw [segmentArea_move, linear_apply, linear_apply, mul_add]
      have hstart : u.linear (reached + segmentArea p q) - segmentArea (p.move u) (q.move u) =
          u.linear (reached + segmentArea p q - segmentArea p q) := by
        rw [segmentArea_move, linear_apply, linear_apply, mul_sub]
      simp only [List.map_cons, Prod.map_apply, split?]
      rw [htotal, hstart, ih]
      simp only [u.linear.le_iff]
      split_ifs
      · exact height?_rescale u.linear u target
          [⟨reached + segmentArea p q - segmentArea p q, p.x⟩, ⟨reached + segmentArea p q, q.x⟩]
      · rfl

theorem discreteBisector?_move :
    discreteBisector? (curve.map (Corner.move u)) = (discreteBisector? curve).map u := by
  rw [discreteBisector?, discreteBisector?, heights_move, firstReaching?_move]

theorem half_move :
    sum (segmentAreas (curve.map (Corner.move u))) / two =
      u.linear (sum (segmentAreas curve) / two) := by
  have hareas : segmentAreas (curve.map (Corner.move u)) =
      (segmentAreas curve).map fun area => u.scale * area := by
    rw [segmentAreas, segmentAreas, consecutive_map, List.map_map, List.map_map]
    exact List.map_congr_left fun s _ => u.segmentArea_move s.1 s.2
  rw [hareas, Rational.sum_eq, Rational.sum_eq, List.sum_map_mul_left, List.map_id', linear_apply,
    mul_div_assoc]

theorem continuousBisector?_move :
    continuousBisector? (curve.map (Corner.move u)) = (continuousBisector? curve).map u := by
  have hzero : u.linear 0 = 0 := by rw [linear_apply, mul_zero]
  have hsplit := u.split?_move (sum (segmentAreas curve) / two) 0 (consecutive curve)
  rw [hzero] at hsplit
  have hflat : u.linear (sum (segmentAreas curve) / two) ≤ 0 ↔
      sum (segmentAreas curve) / two ≤ 0 := by
    have hle := u.linear.le_iff (x := sum (segmentAreas curve) / two) (y := 0)
    rwa [hzero] at hle
  simp only [continuousBisector?]
  rw [half_move, consecutive_map, hsplit, highestPositions_move, mean?_map, List.getLast?_map,
    Option.map_map]
  simp only [hflat]
  split_ifs
  · rfl
  · rw [Option.map_or, Option.map_map]
    rfl

theorem centroid?_move (domain : Domain) :
    centroid? domain (curve.map (Corner.move u)) = (centroid? domain curve).map u := by
  have hheights : weightedMean? ((curve.map (Corner.move u)).map fun p => (p.x, p.y)) =
      (weightedMean? (curve.map fun p => (p.x, p.y))).map u := by
    rw [← weightedMean?_map, List.map_map, List.map_map]
    rfl
  cases domain with
  | discrete => exact hheights
  | continuous =>
      simp only [centroid?]
      rw [centerOfGravity?_move, hheights, Option.map_or]

theorem read?_move (method : Method) (domain : Domain) :
    method.read? domain (curve.map (Corner.move u)) = (method.read? domain curve).map u := by
  cases method with
  | centroid => exact u.centroid?_move curve domain
  | bisector =>
      cases domain with
      | discrete => exact u.discreteBisector?_move curve
      | continuous => exact u.continuousBisector?_move curve
  | meanOfMaximum =>
      simp only [Method.read?]
      rw [highestPositions_move, mean?_map]
  | largestOfMaximum =>
      simp only [Method.read?]
      rw [highestPositions_move, greatest?_map]
  | smallestOfMaximum =>
      simp only [Method.read?]
      rw [highestPositions_move, least?_map]

theorem value?_move (method : Method) (domain : Domain) :
    method.value? domain (curve.map (Corner.move u)) = (method.value? domain curve).map u := by
  rw [Method.value?, Method.value?, read?_move, List.all_map]
  change (if curve.all (fun p => p.y == 0) then none else _) = _
  split_ifs <;> rfl

theorem evenlySpaced_map (lower upper : ℚ) (count : ℕ) :
    evenlySpaced (u lower) (u upper) count = (evenlySpaced lower upper count).map u := by
  simp only [evenlySpaced, List.map_map]
  apply List.map_congr_left
  intro i _
  simp only [Function.comp_apply, apply]
  split_ifs <;> ring

end Rescaling

/-! ## Groups -/

structure Activation.Rescaled (u : Rescaling) (a b : Activation ℚ) : Prop where
  subject : b.subject = a.subject
  state : b.set.state = a.set.state
  shape : a.set.shape.Rescaled u b.set.shape
  strength : b.strength = a.strength

namespace Aggregate

variable {u : Rescaling} {g h : List (Activation ℚ)}

theorem defining_rescaled (e : List.Forall₂ (Activation.Rescaled u) g h) :
    (h.flatMap fun b => b.set.shape.positions) =
      (g.flatMap fun a => a.set.shape.positions).map u := by
  rw [List.flatMap_def, List.flatMap_def, List.map_flatten, List.map_map]
  exact congrArg List.flatten (map_eq_of_forall₂ e fun _ _ _ hb => hb.shape.positions)

theorem spread_rescaled (e : List.Forall₂ (Activation.Rescaled u) g h) :
    spread h = (spread g).map u := by
  have hlower : (h.map fun b => b.set.lower) = (g.map fun a => a.set.lower).map u := by
    rw [List.map_map]
    exact map_eq_of_forall₂ e fun _ _ _ hb => hb.shape.lower
  have hupper : (h.map fun b => b.set.upper) = (g.map fun a => a.set.upper).map u := by
    rw [List.map_map]
    exact map_eq_of_forall₂ e fun _ _ _ hb => hb.shape.upper
  unfold spread
  rw [hlower, hupper, u.least?_map, u.greatest?_map]
  cases least? (g.map fun a => a.set.lower) with
  | none => rfl
  | some lower =>
      cases greatest? (g.map fun a => a.set.upper) with
      | none => rfl
      | some upper => exact u.evenlySpaced_map lower upper sampleCount

theorem positions_rescaled (e : List.Forall₂ (Activation.Rescaled u) g h) (domain : Domain) :
    positions domain h = (positions domain g).map u := by
  unfold positions
  rw [defining_rescaled e, spread_rescaled e]
  cases domain with
  | discrete => exact u.sortedDistinct_map _
  | continuous =>
      dsimp only
      rw [← List.map_append, u.sortedDistinct_map]

theorem height_rescaled (e : List.Forall₂ (Activation.Rescaled u) g h) (x : ℚ) :
    height h (u x) = height g x := by
  have hclipped : (h.map fun b => (b.clipped (u x)).value) =
      g.map fun a => (a.clipped x).value := by
    apply map_eq_of_forall₂ e
    intro a _ b hb
    rw [Activation.clipped, Activation.clipped, hb.strength, FuzzySet.membership,
      FuzzySet.membership, hb.shape.membership]
  rw [height, height, hclipped]

theorem curve_rescaled (e : List.Forall₂ (Activation.Rescaled u) g h) (domain : Domain) :
    curve domain h = (curve domain g).map (Corner.move u) := by
  rw [curve, curve, positions_rescaled e, List.map_map, List.map_map]
  exact List.map_congr_left fun x _ => congrArg (Corner.mk (u x)) (height_rescaled e x)

end Aggregate

section Groups

variable {u : Rescaling} {g h : List (Activation ℚ)}

structure Outcome.Rescaled (u : Rescaling) (o p : Outcome ℚ) : Prop where
  subject : p.subject = o.subject
  value : p.value = u o.value

theorem Outcome.ofValue?_rescaled (s : Label) (x? : Option ℚ) :
    Agree (Outcome.Rescaled u) (ofValue? s x?) (ofValue? s (x?.map u)) := by
  cases x? with
  | none => exact .error _
  | some x => exact .ok ⟨rfl, rfl⟩

theorem Defuzzifier.outcomeOn_rescaled (d : Defuzzifier)
    (e : List.Forall₂ (Activation.Rescaled u) g h) (s : Label) :
    Agree (Outcome.Rescaled u) (d.outcomeOn g s) (d.outcomeOn h s) := by
  cases d with
  | merging method =>
      have hkinds : (h.map fun b => b.set.shape.isSingleton) =
          g.map fun a => a.set.shape.isSingleton :=
        map_eq_of_forall₂ e fun _ _ _ hb => hb.shape.isSingleton_eq
      rw [outcomeOn, outcomeOn, groupDomain?_congr hkinds]
      cases groupDomain? g with
      | none => exact .error _
      | some domain =>
          dsimp only
          rw [Aggregate.curve_rescaled e, u.value?_move]
          exact Outcome.ofValue?_rescaled s _
  | weightedAverage =>
      have hweighted : (h.map fun b => (b.set.centroid, b.strength.value)) =
          (g.map fun a => (a.set.centroid, a.strength.value)).map fun p => (u p.1, p.2) := by
        rw [List.map_map]
        apply map_eq_of_forall₂ e
        intro a _ b hb
        rw [hb.strength, FuzzySet.centroid, hb.shape.centroid]
        rfl
      rw [outcomeOn, outcomeOn, hweighted, u.weightedMean?_map]
      exact Outcome.ofValue?_rescaled s _

theorem Defuzzifier.defuzzify_rescaled (d : Defuzzifier)
    (e : List.Forall₂ (Activation.Rescaled u) g h) :
    Agree (Outcome.Rescaled u) (d.defuzzify g) (d.defuzzify h) := by
  have hsubject : groupSubject h = groupSubject g :=
    groupSubject_congr (map_eq_of_forall₂ e fun _ _ _ hb => hb.subject)
      (map_eq_of_forall₂ e fun _ _ _ hb => hb.strength)
  rw [defuzzify_eq, defuzzify_eq, hsubject]
  cases groupSubject g with
  | error f => exact .error f
  | ok s => exact d.outcomeOn_rescaled e s

theorem exists_rescaled_iff (u : Rescaling) (g : List (Activation ℚ)) :
    (∃ h, List.Forall₂ (Activation.Rescaled u) g h) ↔
      ∀ a ∈ g, ∀ x ∈ a.set.shape.positions, 0 ≤ u x := by
  constructor
  · rintro ⟨h, e⟩ a ha
    obtain ⟨b, -, hab⟩ := exists_mem_of_forall₂ e ha
    exact (Shape.exists_rescaled _).1 ⟨_, hab.shape⟩
  · intro hnonneg
    apply exists_forall₂
    intro a ha
    obtain ⟨shape, hshape⟩ := (Shape.exists_rescaled _).2 (hnonneg a ha)
    exact ⟨⟨a.subject, ⟨a.set.state, shape⟩, a.strength⟩, rfl, rfl, hshape, rfl⟩

end Groups

/-- Units do not matter in exact arithmetic.  The sets of a group can be measured
in other units, `scale * x + shift` for `x`, unless a position would become
negative.  Then every defuzzifier refuses the new group for the reason it
refuses the old one for, or its value is the old value in the new units. -/
theorem Defuzzifier.indifferent_to_units (u : Rescaling) (group : List (Activation ℚ)) :
    ((∃ group', List.Forall₂ (Activation.Rescaled u) group group') ↔
      ∀ a ∈ group, ∀ x ∈ a.set.shape.positions, 0 ≤ u x) ∧
    ∀ group', List.Forall₂ (Activation.Rescaled u) group group' →
      ∀ d : Defuzzifier,
        Agree (Outcome.Rescaled u) (d.defuzzify group) (d.defuzzify group') :=
  ⟨exists_rescaled_iff u group, fun _ e d => d.defuzzify_rescaled e⟩

def fahrenheit : Rescaling := ⟨9 / 5, 32, by norm_num⟩

def warmth : Except (Fault ℚ) (List (Activation ℚ)) := do
  let room ← Label.named "room"
  let mild ← FuzzySet.named "mild" (← Shape.ofTriangle 15 20 22 0 1)
  let hot ← FuzzySet.named "hot" (← Shape.ofRightEdge 20 35 0 1)
  return [⟨room, mild, ← Degree.ofScalar (3 / 4)⟩, ⟨room, hot, ← Degree.ofScalar (1 / 4)⟩]

theorem indifferent_to_units_of_warmth : ∃ group group' o o',
    warmth = .ok group ∧ List.Forall₂ (Activation.Rescaled fahrenheit) group group' ∧
      Defuzzifier.weightedAverage.defuzzify group = .ok o ∧ o.value = 87 / 4 ∧
      Defuzzifier.weightedAverage.defuzzify group' = .ok o' ∧ o'.value = fahrenheit (87 / 4) := by
  have hrun : (warmth.toOption.any fun group =>
      (group.all fun a => a.set.shape.positions.all fun x => 0 ≤ fahrenheit x) &&
        (Defuzzifier.weightedAverage.defuzzify group).toOption.any fun o =>
          o.value == 87 / 4) = true := by
    decide +kernel
  simp only [Option.any_eq_true, Bool.and_eq_true, toOption_eq_some, List.all_eq_true,
    decide_eq_true_eq, beq_iff_eq] at hrun
  obtain ⟨group, hgroup, hnonneg, o, ho, hvalue⟩ := hrun
  obtain ⟨hexists, hagree⟩ := Defuzzifier.indifferent_to_units fahrenheit group
  obtain ⟨group', e⟩ := hexists.2 hnonneg
  obtain ⟨o', ho', hrescaled⟩ := (hagree group' e .weightedAverage).exists_ok ho
  exact ⟨group, group', o, o', hgroup, e, ho, hvalue, ho', hvalue ▸ hrescaled.value⟩

end FuzzyInference
