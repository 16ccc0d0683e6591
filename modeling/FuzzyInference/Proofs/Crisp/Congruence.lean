import FuzzyInference.Proofs.Crisp.Groups
import FuzzyInference.Proofs.Curve.Congruence

/-!
# Equal curves are read alike

The five methods make the same number of merged curves through the same
corners.  What they divide by is positive, or a number of the method's own, or
the width of a segment that has one.
-/

namespace FuzzyInference

open Scalar Binary

theorem Scalar.Same.ne_zero_of_pos {a : Float} (h : 0 < a) : ¬ (a == 0) = true := by
  intro hzero
  have hself : (0 : Float) < 0 := ((refl _).lt_iff (of_beq hzero)).1 h
  exact absurd hself (by decide +kernel)

private theorem quotient_same {a a' b b' : Float} (ha : Same a a') (hb : Same b b') :
    Option.Rel Same (if 0 < b then some (a / b) else none)
      (if 0 < b' then some (a' / b') else none) := by
  by_cases hpos : 0 < b
  · rw [if_pos hpos, if_pos (((Same.refl _).lt_iff hb).1 hpos)]
    exact .some (ha.div hb (Same.ne_zero_of_pos hpos))
  · rw [if_neg hpos, if_neg (fun h => hpos (((Same.refl _).lt_iff hb).2 h))]
    exact .none

private theorem rel_ite {p q : Prop} [Decidable p] [Decidable q] {x? x'? y? y'? : Option Float}
    (h : p ↔ q) (hx : Option.Rel Same x? x'?) (hy : Option.Rel Same y? y'?) :
    Option.Rel Same (if p then x? else y?) (if q then x'? else y'?) := by
  by_cases hp : p
  · rw [if_pos hp, if_pos (h.1 hp)]
    exact hx
  · rw [if_neg hp, if_neg (fun hq => hp (h.2 hq))]
    exact hy

private theorem or_same {x? x'? y? y'? : Option Float} (hx : Option.Rel Same x? x'?)
    (hy : Option.Rel Same y? y'?) : Option.Rel Same (x?.or y?) (x'?.or y'?) := by
  cases hx with
  | none => exact hy
  | some hx => exact .some hx

theorem weightedMean?_same {l r : List (Float × Float)}
    (h : List.Forall₂ (fun p q => Same p.1 q.1 ∧ Same p.2 q.2) l r) :
    Option.Rel Same (weightedMean? l) (weightedMean? r) := by
  apply quotient_same
  · exact List.rel_foldl (fun _ _ hacc _ _ hp => hacc.add (hp.1.mul hp.2)) (Same.refl _) h
  · exact List.rel_foldl (fun _ _ hacc _ _ hp => hacc.add hp.2) (Same.refl _) h

namespace Polyline

variable {l r : List (Corner Float)} {p p' q q' : Corner Float}

/-! ## Where a curve is highest -/

theorem highestPositions_same (h : List.Forall₂ Corner.Same l r) :
    List.Forall₂ Same (highestPositions l) (highestPositions r) := by
  have hhighest := Same.greatest? (List.rel_map (fun _ _ hp => Corner.Same.y hp) h)
  unfold highestPositions
  generalize greatest? (l.map Corner.y) = x? at hhighest ⊢
  generalize greatest? (r.map Corner.y) = y? at hhighest ⊢
  cases hhighest with
  | none => exact .nil
  | some hxy =>
      apply List.rel_map (fun _ _ hp => Corner.Same.x hp)
      exact List.rel_filter (fun _ _ hp => hp.y.beq_iff hxy) h

theorem mean?_same {xs ys : List Float} (h : List.Forall₂ Same xs ys) :
    Option.Rel Same (mean? xs) (mean? ys) := by
  have hsum : Same (xs.foldl (· + ·) 0) (ys.foldl (· + ·) 0) :=
    List.rel_foldl (fun _ _ hacc _ _ hx => hacc.add hx) (Same.refl _) h
  unfold mean?
  cases h with
  | nil => exact .none
  | cons hxy h =>
      rw [if_neg (List.cons_ne_nil _ _), if_neg (List.cons_ne_nil _ _), List.length_cons,
        List.length_cons, h.length_eq]
      exact .some (hsum.div_right _)

/-! ## Areas -/

theorem segmentArea_same (hp : p.Same p') (hq : q.Same q') :
    Same (segmentArea p q) (segmentArea p' q') :=
  ((hp.y.add hq.y).mul (hq.x.sub hp.x)).div_right _

theorem segmentAreas_same (h : List.Forall₂ Corner.Same l r) :
    List.Forall₂ Same (segmentAreas l) (segmentAreas r) :=
  List.rel_map (fun _ _ hs => segmentArea_same hs.1 hs.2) (forall₂_consecutive h)

structure Lamina.Same (t t' : Lamina Float) : Prop where
  area : Scalar.Same t.area t'.area
  moment : Scalar.Same t.moment t'.moment

theorem addSegment_same {t t' : Lamina Float} (ht : t.Same t') (hp : p.Same p')
    (hq : q.Same q') : (addSegment t p q).Same (addSegment t' p' q') := by
  have hbase := hq.x.sub hp.x
  have hrectangle := (hp.y.smaller hq.y).mul hbase
  have hcenter := hp.x.add (hbase.div_right two)
  have hflat := hq.y.beq_iff hp.y
  have hheight := (hbase.mul (hq.y.sub hp.y).magnitude).div_right two
  have htips := Same.ite (hp.y.lt_iff hq.y)
    (hp.x.add ((Same.refl (two / three)).mul hbase))
    (hp.x.add ((Same.refl (1 / three)).mul hbase))
  constructor
  · refine (ht.area.add hrectangle).add ?_
    exact Same.ite hflat (Same.refl _) hheight
  · refine (ht.moment.add (hrectangle.mul hcenter)).add (Same.mul ?_ ?_)
    · exact Same.ite hflat (Same.refl _) hheight
    · exact Same.ite hflat (Same.refl _) htips

theorem lamina_same (h : List.Forall₂ Corner.Same l r) : (lamina l).Same (lamina r) := by
  have hnone : Lamina.Same ⟨0, 0⟩ ⟨0, 0⟩ := ⟨Same.refl _, Same.refl _⟩
  unfold lamina
  exact List.rel_foldl (fun _ _ ht _ _ hs => addSegment_same ht hs.1 hs.2) hnone
    (forall₂_consecutive h)

theorem centerOfGravity?_same (h : List.Forall₂ Corner.Same l r) :
    Option.Rel Same (centerOfGravity? l) (centerOfGravity? r) :=
  quotient_same (lamina_same h).moment (lamina_same h).area

theorem centroid?_same (domain : Domain) (h : List.Forall₂ Corner.Same l r) :
    Option.Rel Same (centroid? domain l) (centroid? domain r) := by
  have hpairs : List.Forall₂ (fun p q : Float × Float => Same p.1 q.1 ∧ Same p.2 q.2)
      (l.map fun p => (p.x, p.y)) (r.map fun p => (p.x, p.y)) :=
    List.rel_map (fun _ _ hp => ⟨Corner.Same.x hp, Corner.Same.y hp⟩) h
  have hheights := weightedMean?_same hpairs
  cases domain with
  | discrete => exact hheights
  | continuous => exact or_same (centerOfGravity?_same h) hheights

/-! ## What halves a curve -/

theorem firstReaching?_same {target target' reached reached' : Float} (ht : Same target target')
    (hreached : Same reached reached') (h : List.Forall₂ Corner.Same l r) :
    Option.Rel Same (firstReaching? target reached l) (firstReaching? target' reached' r) := by
  induction h generalizing reached reached' with
  | nil => exact .none
  | cons hp _ ih =>
      have htotal := hreached.add hp.y
      exact rel_ite (ht.le_iff htotal) (.some hp.x) (ih htotal)

theorem split?_same {target target' reached reached' : Float} (ht : Same target target')
    (hreached : Same reached reached') {segments segments' : List (Corner Float × Corner Float)}
    (h : List.Forall₂ (fun s t => s.1.Same t.1 ∧ s.2.Same t.2) segments segments') :
    Option.Rel Same (split? target reached segments) (split? target' reached' segments') := by
  induction h generalizing reached reached' with
  | nil => exact .none
  | @cons s t _ _ hs _ ih =>
      have harea := segmentArea_same hs.1 hs.2
      have htotal := hreached.add harea
      by_cases hle : target ≤ reached + segmentArea s.1 s.2
      · have hle' := (ht.le_iff htotal).1 hle
        rw [split?, split?, if_pos hle, if_pos hle']
        apply height?_same (not_isNaN_of_le hle).1 ht
        exact .cons ⟨htotal.sub harea, hs.1.x⟩ (.cons ⟨htotal, hs.2.x⟩ .nil)
      · have hle' := mt (ht.le_iff htotal).2 hle
        rw [split?, split?, if_neg hle, if_neg hle']
        exact ih htotal

theorem discreteBisector?_same (h : List.Forall₂ Corner.Same l r) :
    Option.Rel Same (discreteBisector? l) (discreteBisector? r) := by
  have hheights := Same.sum (List.rel_map (fun _ _ hp => Corner.Same.y hp) h)
  exact firstReaching?_same (hheights.div_right two) (Same.refl _) h

theorem continuousBisector?_same (h : List.Forall₂ Corner.Same l r) :
    Option.Rel Same (continuousBisector? l) (continuousBisector? r) := by
  have hhalf := (Same.sum (segmentAreas_same h)).div_right two
  have hlast : Option.Rel Same (l.getLast?.map Corner.x) (r.getLast?.map Corner.x) := by
    have hcorner := forall₂_getLast? h
    generalize l.getLast? = p? at hcorner ⊢
    generalize r.getLast? = q? at hcorner ⊢
    cases hcorner with
    | none => exact .none
    | some hp => exact .some hp.x
  exact rel_ite (hhalf.le_iff (Same.refl _)) (mean?_same (highestPositions_same h))
    (or_same (split?_same hhalf (Same.refl _) (forall₂_consecutive h)) hlast)

end Polyline

/-! ## Methods -/

theorem Method.read?_same (method : Method) (domain : Domain) {l r : List (Corner Float)}
    (h : List.Forall₂ Corner.Same l r) :
    Option.Rel Same (method.read? domain l) (method.read? domain r) := by
  have hhighest := Polyline.highestPositions_same h
  cases method with
  | centroid => exact Polyline.centroid?_same domain h
  | bisector =>
      cases domain with
      | discrete => exact Polyline.discreteBisector?_same h
      | continuous => exact Polyline.continuousBisector?_same h
  | meanOfMaximum => exact Polyline.mean?_same hhighest
  | largestOfMaximum => exact Same.greatest? hhighest
  | smallestOfMaximum => exact Same.least? hhighest

theorem Method.value?_same (method : Method) (domain : Domain) {l r : List (Corner Float)}
    (h : List.Forall₂ Corner.Same l r) :
    Option.Rel Same (method.value? domain l) (method.value? domain r) := by
  have hflat := forall₂_all (p := fun p => p.y == 0) (q := fun p => p.y == 0)
    (fun _ _ hp => hp.y.beq_eq (Same.refl _)) h
  exact rel_ite (by rw [hflat]) .none (method.read?_same domain h)

end FuzzyInference
