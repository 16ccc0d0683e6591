import FuzzyInference.Proofs.Binary.Same
import FuzzyInference.Proofs.Fallible
import FuzzyInference.Proofs.Logic.Closure

/-!
# Equal degrees are joined alike

Degrees are compared by value.  Every norm makes the same degree of the same
degrees, because what it divides by is never zero, and so does every statement.
-/

namespace FuzzyInference

open Scalar Binary Fallible

/-! ## Degrees -/

namespace Degree

def Same (a b : Degree Float) : Prop := Scalar.Same a.value b.value

variable {a a' b b' c c' : Degree Float}

namespace Same

theorem refl (a : Degree Float) : Same a a := Scalar.Same.refl _

theorem ite {p q : Prop} [Decidable p] [Decidable q] (h : p ↔ q) (ha : Same a a')
    (hb : Same b b') : Same (if p then a else b) (if q then a' else b') := by
  by_cases hp : p
  · rw [if_pos hp, if_pos (h.1 hp)]
    exact ha
  · rw [if_neg hp, if_neg (fun hq => hp (h.2 hq))]
    exact hb

theorem min (ha : Same a a') (hb : Same b b') : Same (min a b) (Min.min a' b') :=
  ite (Scalar.Same.lt_iff hb ha) hb ha

theorem max (ha : Same a a') (hb : Same b b') : Same (max a b) (Max.max a' b') :=
  ite (Scalar.Same.lt_iff ha hb) hb ha

theorem nearest {x x' : Float} (hx : Scalar.Same x x') : Same (nearest x) (Degree.nearest x') := by
  have hlow := (Scalar.Same.refl 0).le_iff hx
  have hhigh := hx.le_iff (Scalar.Same.refl 1)
  by_cases hunit : (0 : Float) ≤ x ∧ x ≤ 1
  · have hunit' : (0 : Float) ≤ x' ∧ x' ≤ 1 := ⟨hlow.1 hunit.1, hhigh.1 hunit.2⟩
    have hvalue : (Degree.nearest x).value = x := value_nearest hunit
    have hvalue' : (Degree.nearest x').value = x' := value_nearest hunit'
    rw [Same, hvalue, hvalue']
    exact hx
  · have hunit' : ¬ ((0 : Float) ≤ x' ∧ x' ≤ 1) := fun h => hunit ⟨hlow.2 h.1, hhigh.2 h.2⟩
    unfold Degree.nearest
    rw [dif_neg hunit, dif_neg hunit']
    exact ite ((Scalar.Same.refl 1).lt_iff hx) (refl 1) (refl 0)

theorem clamp {x x' : Float} (hx : Scalar.Same x x') (hb : Same b b') (hc : Same c c') :
    Same (clamp x b c) (Degree.clamp x' b' c') := by
  unfold Degree.clamp
  refine ite (or_congr ?_ (hx.lt_iff hb)) hb (ite (Scalar.Same.lt_iff hc hx) hc (nearest hx))
  rw [hx.isNaN_eq]

private theorem value_of_ofScalar {x : Float} {d : Degree Float} (h : ofScalar x = .ok d) :
    d.value = x := by
  unfold ofScalar at h
  split_ifs at h
  cases h
  rfl

private theorem value_of_ofRounded {x : Float} {d : Degree Float} (h : ofRounded x = .ok d) :
    d.value = if -tolerance ≤ x ∧ x < 0 then 0
      else if 1 < x ∧ x ≤ 1 + tolerance then 1 else x := by
  unfold ofRounded at h
  split_ifs at h ⊢
  · cases h
    rfl
  · cases h
    rfl
  · exact value_of_ofScalar h

theorem ofRounded {x x' : Float} {d d' : Degree Float} (hx : Scalar.Same x x')
    (hd : ofRounded x = .ok d) (hd' : Degree.ofRounded x' = .ok d') : Same d d' := by
  rw [Same, value_of_ofRounded hd, value_of_ofRounded hd']
  have hbelow := and_congr ((Scalar.Same.refl (-tolerance)).le_iff hx)
    (hx.lt_iff (Scalar.Same.refl 0))
  have habove := and_congr ((Scalar.Same.refl 1).lt_iff hx)
    (hx.le_iff (Scalar.Same.refl (1 + tolerance)))
  exact Scalar.Same.ite hbelow (Scalar.Same.refl _)
    (Scalar.Same.ite habove (Scalar.Same.refl _) hx)

end Same

end Degree

/-! ## Norms -/

section Formulas

variable {u u' v v' n n' d d' : Float}

theorem probabilisticSum_same (hu : Same u u') (hv : Same v v') :
    Same (probabilisticSum u v) (probabilisticSum u' v') :=
  Same.ite (hv.le_iff hu) (hu.add (hv.mul ((Same.refl 1).sub hu)))
    (hv.add (hu.mul ((Same.refl 1).sub hv)))

theorem guardedQuotient_same (hn : Same n n') (hd : Same d d') (limit : Float) :
    Same (guardedQuotient n d limit) (guardedQuotient n' d' limit) := by
  have hle := hd.le_iff (Same.refl 0)
  unfold guardedQuotient
  by_cases hguard : d ≤ 0
  · rw [if_pos hguard, if_pos (hle.1 hguard)]
    exact Same.refl _
  · rw [if_neg hguard, if_neg (mt hle.2 hguard)]
    apply hn.div hd
    intro hzero
    have hself : (0 : Float) ≤ 0 := zero_le_zero
    exact hguard (((Same.of_beq hzero).le_iff (Same.refl 0)).2 hself)

end Formulas

private theorem one_add_mul_ne_zero (a b : Degree Float) :
    ¬ (1 + a.value * b.value == 0) = true := by
  obtain ⟨u, ha⟩ := a.exists_inUnit
  obtain ⟨v, hb⟩ := b.exists_inUnit
  have hp := ha.mul hb
  have hsum := isValue_one.add hp.isValue (inRange_of_abs_le_two
    (abs_le.2 ⟨by linarith [hp.nonneg], by linarith [hp.le_one]⟩))
  have hone : 1 ≤ rounded (1 + rounded (u * v)) :=
    le_rounded isValue_one.isDouble (by linarith [hp.nonneg])
  rw [hsum.beq_iff isValue_zero]
  linarith

namespace TNorm

theorem evaluate_agree (norm : TNorm) {a a' b b' : Degree Float} (ha : a.Same a')
    (hb : b.Same b') : Agree Degree.Same (norm.evaluate a b) (norm.evaluate a' b') := by
  obtain ⟨d, hd⟩ := norm.exists_evaluate a b
  obtain ⟨d', hd'⟩ := norm.exists_evaluate a' b'
  suffices hsame : d.Same d' by
    rw [hd, hd']
    exact .ok hsame
  have hone := Scalar.Same.refl (1 : Float)
  have hzero := Scalar.Same.refl (0 : Float)
  cases norm with
  | minimum =>
      cases hd
      cases hd'
      exact ha.min hb
  | product =>
      cases hd
      cases hd'
      exact Degree.Same.nearest (ha.mul hb)
  | lukasiewicz =>
      exact Degree.Same.ofRounded ((ha.sub (hone.sub hb)).larger hzero) hd hd'
  | drastic =>
      cases hd
      cases hd'
      exact .ite ((ha.max hb).beq_iff hone) (ha.min hb) (.refl 0)
  | einstein =>
      have hdenominator := (Scalar.Same.refl two).sub (probabilisticSum_same ha hb)
      exact Degree.Same.ofRounded (guardedQuotient_same (ha.mul hb) hdenominator 0) hd hd'
  | hamacher =>
      exact Degree.Same.ofRounded
        (guardedQuotient_same (ha.mul hb) (probabilisticSum_same ha hb) 0) hd hd'
  | nilpotent =>
      cases hd
      cases hd'
      exact .ite (hone.lt_iff (ha.add hb)) (ha.min hb) (.refl 0)

end TNorm

namespace TConorm

theorem evaluate_agree (conorm : TConorm) {a a' b b' : Degree Float} (ha : a.Same a')
    (hb : b.Same b') : Agree Degree.Same (conorm.evaluate a b) (conorm.evaluate a' b') := by
  obtain ⟨d, hd⟩ := conorm.exists_evaluate a b
  obtain ⟨d', hd'⟩ := conorm.exists_evaluate a' b'
  suffices hsame : d.Same d' by
    rw [hd, hd']
    exact .ok hsame
  have hone := Scalar.Same.refl (1 : Float)
  have hzero := Scalar.Same.refl (0 : Float)
  have hsum := Scalar.Same.add ha hb
  have hproduct := Scalar.Same.mul ha hb
  cases conorm with
  | maximum =>
      cases hd
      cases hd'
      exact ha.max hb
  | probabilistic => exact Degree.Same.ofRounded (probabilisticSum_same ha hb) hd hd'
  | bounded => exact Degree.Same.ofRounded (hsum.smaller hone) hd hd'
  | drastic =>
      cases hd
      cases hd'
      exact .ite ((ha.min hb).beq_iff hzero) (ha.max hb) (.refl 1)
  | einstein =>
      have hquotient := hsum.div (hone.add hproduct) (one_add_mul_ne_zero a b)
      exact Degree.Same.ofRounded hquotient hd hd'
  | hamacher =>
      have hnumerator := hsum.sub (((Scalar.Same.refl two).mul ha).mul hb)
      have hquotient := guardedQuotient_same hnumerator (hone.sub hproduct) 1
      exact Degree.Same.ofRounded (hquotient.smaller hone) hd hd'
  | nilpotent =>
      cases hd
      cases hd'
      exact .ite (hsum.lt_iff hone) (ha.max hb) (.refl 1)

end TConorm

/-! ## Statements -/

theorem Algebra.keeps_same (algebra : Algebra) : algebra.Keeps Degree.Same :=
  ⟨algebra.conjunction.evaluate_agree, algebra.disjunction.evaluate_agree⟩

end FuzzyInference
