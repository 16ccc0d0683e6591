import FuzzyInference.Proofs.Logic.Evaluation
import FuzzyInference.Proofs.Rational.Degree
import Mathlib.Algebra.Order.Group.MinMax
import Mathlib.Order.Interval.Set.Basic
import Mathlib.Tactic.FieldSimp
import Mathlib.Tactic.Positivity
import Mathlib.Tactic.Ring

/-!
# Norms are triangular

In exact arithmetic AND is read by t-norms and OR by t-conorms: operations on
the unit interval that are commutative, associative and monotone, with 1 or 0
as neutral element.  Every norm comes to its formula, so no denominator that is
guarded against and no correction of rounding ever shows.

The laws of a conorm are those of its dual norm, seen from the other end of the
interval.
-/

namespace FuzzyInference

open Set

/-! ## Formulas -/

def TNorm.formula (norm : TNorm) (u v : ℚ) : ℚ :=
  match norm with
  | minimum => min u v
  | product => u * v
  | lukasiewicz => max (u + v - 1) 0
  | drastic => if u = 1 ∨ v = 1 then min u v else 0
  | einstein => u * v / (2 - (u + v - u * v))
  | hamacher => if u = 0 ∧ v = 0 then 0 else u * v / (u + v - u * v)
  | nilpotent => if 1 < u + v then min u v else 0

def TConorm.formula (conorm : TConorm) (u v : ℚ) : ℚ :=
  match conorm with
  | maximum => max u v
  | probabilistic => u + v - u * v
  | bounded => min (u + v) 1
  | drastic => if u = 0 ∨ v = 0 then max u v else 1
  | einstein => (u + v) / (1 + u * v)
  | hamacher => if u = 1 ∧ v = 1 then 1 else (u + v - 2 * u * v) / (1 - u * v)
  | nilpotent => if u + v < 1 then max u v else 1

/-- The norm that a conorm is to degrees counted from 1 downwards. -/
def TConorm.dual : TConorm → TNorm
  | maximum => .minimum
  | probabilistic => .product
  | bounded => .lukasiewicz
  | drastic => .drastic
  | einstein => .einstein
  | hamacher => .hamacher
  | nilpotent => .nilpotent

variable {u v w u' : ℚ}

private theorem complement_mem (hu : u ∈ Icc (0 : ℚ) 1) : 1 - u ∈ Icc (0 : ℚ) 1 :=
  ⟨sub_nonneg.2 hu.2, sub_le_self 1 hu.1⟩

/-! ## Laws of the norms -/

namespace TNorm

/-- A quotient by 0 is 0, which is what the norm makes of two zeros. -/
theorem formula_hamacher (u v : ℚ) : hamacher.formula u v = u * v / (u + v - u * v) := by
  rw [formula]
  split_ifs with hzero
  · rw [hzero.1, zero_mul, zero_div]
  · rfl

private theorem sum_sub_mul_pos (hu : 0 < u) (hv : v ∈ Icc (0 : ℚ) 1) (hu1 : u ≤ 1) :
    0 < u + v - u * v := by
  have hrest : 0 ≤ v * (1 - u) := mul_nonneg hv.1 (sub_nonneg.2 hu1)
  linarith

private theorem one_le_einstein_denominator (hu : u ∈ Icc (0 : ℚ) 1) (hv : v ∈ Icc (0 : ℚ) 1) :
    1 ≤ 2 - (u + v - u * v) := by
  have hrest : 0 ≤ (1 - u) * (1 - v) := mul_nonneg (sub_nonneg.2 hu.2) (sub_nonneg.2 hv.2)
  linarith

theorem formula_comm (norm : TNorm) (u v : ℚ) : norm.formula u v = norm.formula v u := by
  cases norm with
  | minimum => exact min_comm u v
  | product => exact mul_comm u v
  | lukasiewicz => simp only [formula, add_comm]
  | drastic => simp only [formula, or_comm, min_comm]
  | einstein => simp only [formula, mul_comm, add_comm]
  | hamacher => simp only [formula, and_comm, mul_comm, add_comm]
  | nilpotent => simp only [formula, add_comm, min_comm]

theorem formula_one (norm : TNorm) (hu : u ∈ Icc (0 : ℚ) 1) : norm.formula u 1 = u := by
  obtain ⟨hu0, hu1⟩ := hu
  cases norm with
  | minimum => exact min_eq_left hu1
  | product => exact mul_one u
  | lukasiewicz => simp [formula, hu0]
  | drastic => simp [formula, hu1]
  | einstein =>
      have hden : 2 - (u + 1 - u * 1) = 1 := by ring
      rw [formula, hden, mul_one, div_one]
  | hamacher =>
      have hden : u + 1 - u * 1 = 1 := by ring
      rw [formula_hamacher, hden, mul_one, div_one]
  | nilpotent =>
      rw [formula]
      split_ifs with hsum
      · exact min_eq_left hu1
      · linarith

theorem formula_nonneg (norm : TNorm) (hu : u ∈ Icc (0 : ℚ) 1) (hv : v ∈ Icc (0 : ℚ) 1) :
    0 ≤ norm.formula u v := by
  have hmin : 0 ≤ min u v := le_min hu.1 hv.1
  have hmul : 0 ≤ u * v := mul_nonneg hu.1 hv.1
  cases norm with
  | minimum => exact hmin
  | product => exact hmul
  | lukasiewicz => exact le_max_right _ _
  | drastic =>
      rw [formula]
      split_ifs
      · exact hmin
      · exact le_rfl
  | einstein => exact div_nonneg hmul (zero_le_one.trans (one_le_einstein_denominator hu hv))
  | hamacher =>
      have hden : 0 ≤ u * (1 - v) + v := add_nonneg (mul_nonneg hu.1 (sub_nonneg.2 hv.2)) hv.1
      rw [formula_hamacher]
      exact div_nonneg hmul (by linarith)
  | nilpotent =>
      rw [formula]
      split_ifs
      · exact hmin
      · exact le_rfl

/-! ### Monotonicity -/

private theorem formula_drastic_mono (hu' : u' ∈ Icc (0 : ℚ) 1) (hv : v ∈ Icc (0 : ℚ) 1)
    (h : u ≤ u') : drastic.formula u v ≤ drastic.formula u' v := by
  by_cases hone : u = 1 ∨ v = 1
  · have hone' : u' = 1 ∨ v = 1 := hone.imp_left fun hu1 => le_antisymm hu'.2 (hu1.symm.trans_le h)
    rw [formula, if_pos hone, formula, if_pos hone']
    exact min_le_min_right v h
  · rw [formula, if_neg hone]
    exact formula_nonneg drastic hu' hv

private theorem formula_nilpotent_mono (hu' : u' ∈ Icc (0 : ℚ) 1) (hv : v ∈ Icc (0 : ℚ) 1)
    (h : u ≤ u') : nilpotent.formula u v ≤ nilpotent.formula u' v := by
  by_cases hsum : 1 < u + v
  · have hsum' : 1 < u' + v := by linarith
    rw [formula, if_pos hsum, formula, if_pos hsum']
    exact min_le_min_right v h
  · rw [formula, if_neg hsum]
    exact formula_nonneg nilpotent hu' hv

private theorem formula_einstein_mono (hu : u ∈ Icc (0 : ℚ) 1) (hu' : u' ∈ Icc (0 : ℚ) 1)
    (hv : v ∈ Icc (0 : ℚ) 1) (h : u ≤ u') : einstein.formula u v ≤ einstein.formula u' v := by
  have hden := one_le_einstein_denominator hu hv
  have hden' := one_le_einstein_denominator hu' hv
  have hcross : u' * v * (2 - (u + v - u * v)) - u * v * (2 - (u' + v - u' * v)) =
      v * ((u' - u) * (2 - v)) := by
    ring
  have hgap : 0 ≤ v * ((u' - u) * (2 - v)) :=
    mul_nonneg hv.1 (mul_nonneg (sub_nonneg.2 h) (by linarith [hv.2]))
  rw [formula, formula, div_le_div_iff₀ (by linarith) (by linarith)]
  linarith

private theorem formula_hamacher_mono (hu : u ∈ Icc (0 : ℚ) 1) (hu' : u' ∈ Icc (0 : ℚ) 1)
    (hv : v ∈ Icc (0 : ℚ) 1) (h : u ≤ u') : hamacher.formula u v ≤ hamacher.formula u' v := by
  rcases hu.1.eq_or_lt with rfl | hpos
  · have hzero : hamacher.formula 0 v = 0 := by rw [formula_hamacher, zero_mul, zero_div]
    rw [hzero]
    exact formula_nonneg hamacher hu' hv
  · have hden := sum_sub_mul_pos hpos hv hu.2
    have hden' := sum_sub_mul_pos (hpos.trans_le h) hv hu'.2
    have hcross : u' * v * (u + v - u * v) - u * v * (u' + v - u' * v) = v * v * (u' - u) := by
      ring
    have hgap : 0 ≤ v * v * (u' - u) := mul_nonneg (mul_self_nonneg v) (sub_nonneg.2 h)
    rw [formula_hamacher, formula_hamacher, div_le_div_iff₀ hden hden']
    linarith

theorem formula_mono_left (norm : TNorm) (hu : u ∈ Icc (0 : ℚ) 1) (hu' : u' ∈ Icc (0 : ℚ) 1)
    (hv : v ∈ Icc (0 : ℚ) 1) (h : u ≤ u') : norm.formula u v ≤ norm.formula u' v := by
  cases norm with
  | minimum => exact min_le_min_right v h
  | product => exact mul_le_mul_of_nonneg_right h hv.1
  | lukasiewicz => exact max_le_max_right 0 (by linarith)
  | drastic => exact formula_drastic_mono hu' hv h
  | einstein => exact formula_einstein_mono hu hu' hv h
  | hamacher => exact formula_hamacher_mono hu hu' hv h
  | nilpotent => exact formula_nilpotent_mono hu' hv h

theorem formula_le_left (norm : TNorm) (hu : u ∈ Icc (0 : ℚ) 1) (hv : v ∈ Icc (0 : ℚ) 1) :
    norm.formula u v ≤ u := by
  have hone : (1 : ℚ) ∈ Icc (0 : ℚ) 1 := ⟨zero_le_one, le_rfl⟩
  calc norm.formula u v = norm.formula v u := norm.formula_comm u v
    _ ≤ norm.formula 1 u := norm.formula_mono_left hv hone hu hv.2
    _ = norm.formula u 1 := norm.formula_comm 1 u
    _ = u := norm.formula_one hu

theorem formula_mem (norm : TNorm) (hu : u ∈ Icc (0 : ℚ) 1) (hv : v ∈ Icc (0 : ℚ) 1) :
    norm.formula u v ∈ Icc (0 : ℚ) 1 :=
  ⟨norm.formula_nonneg hu hv, (norm.formula_le_left hu hv).trans hu.2⟩

/-! ### Associativity -/

private theorem formula_lukasiewicz_assoc (hu : u ∈ Icc (0 : ℚ) 1) (hw : w ∈ Icc (0 : ℚ) 1) :
    lukasiewicz.formula (lukasiewicz.formula u v) w =
      lukasiewicz.formula u (lukasiewicz.formula v w) := by
  have hu1 := hu.2
  have hw1 := hw.2
  simp only [formula]
  rcases max_cases (u + v - 1) 0 with ⟨hleft, _⟩ | ⟨hleft, _⟩ <;>
    rcases max_cases (v + w - 1) 0 with ⟨hright, _⟩ | ⟨hright, _⟩ <;>
    rw [hleft, hright]
  · ring_nf
  · rw [max_eq_right (by linarith), max_eq_right (by linarith)]
  · rw [max_eq_right (by linarith), max_eq_right (by linarith)]
  · rw [max_eq_right (by linarith), max_eq_right (by linarith)]

/-- Unless one of two degrees is 1 the drastic norm gives 0, which stays. -/
private theorem formula_drastic_of_ne (hu : u ≠ 1) (hv : v ≠ 1) : drastic.formula u v = 0 := by
  rw [formula, if_neg (not_or.2 ⟨hu, hv⟩)]

private theorem formula_zero_left (norm : TNorm) (hv : v ∈ Icc (0 : ℚ) 1) :
    norm.formula 0 v = 0 :=
  le_antisymm (norm.formula_le_left ⟨le_rfl, zero_le_one⟩ hv)
    (norm.formula_nonneg ⟨le_rfl, zero_le_one⟩ hv)

private theorem formula_drastic_assoc (hu : u ∈ Icc (0 : ℚ) 1) (hv : v ∈ Icc (0 : ℚ) 1)
    (hw : w ∈ Icc (0 : ℚ) 1) :
    drastic.formula (drastic.formula u v) w = drastic.formula u (drastic.formula v w) := by
  have hone {x : ℚ} (hx : x ∈ Icc (0 : ℚ) 1) : drastic.formula 1 x = x := by
    rw [formula_comm, formula_one drastic hx]
  by_cases hu1 : u = 1
  · rw [hu1, hone hv, hone (formula_mem drastic hv hw)]
  by_cases hw1 : w = 1
  · rw [hw1, formula_one drastic hv, formula_one drastic (formula_mem drastic hu hv)]
  by_cases hv1 : v = 1
  · rw [hv1, formula_one drastic hu, hone hw]
  · rw [formula_drastic_of_ne hu1 hv1, formula_drastic_of_ne hv1 hw1,
      formula_zero_left drastic hw, formula_comm, formula_zero_left drastic hu]

/-- The nested quotient of the Einstein product, without the inner one. -/
private theorem einstein_nested {n d : ℚ} (hd : d ≠ 0) :
    n / d * w / (2 - (n / d + w - n / d * w)) = n * w / (2 * d - n - w * d + n * w) := by
  have hden : 2 - (n / d + w - n / d * w) = (2 * d - n - w * d + n * w) / d := by
    field_simp
    ring
  rw [hden, div_mul_eq_mul_div, div_div_div_cancel_right₀ hd]

private theorem formula_einstein_assoc (hu : u ∈ Icc (0 : ℚ) 1) (hv : v ∈ Icc (0 : ℚ) 1)
    (hw : w ∈ Icc (0 : ℚ) 1) :
    einstein.formula (einstein.formula u v) w = einstein.formula u (einstein.formula v w) := by
  have hleft := one_le_einstein_denominator hv hu
  have hright := one_le_einstein_denominator hv hw
  rw [formula_comm einstein u v, formula_comm einstein u (einstein.formula v w)]
  simp only [formula]
  rw [einstein_nested (by linarith), einstein_nested (by linarith)]
  congr 1 <;> ring

private theorem hamacher_nested {n d : ℚ} (hd : d ≠ 0) :
    n / d * w / (n / d + w - n / d * w) = n * w / (n + w * d - n * w) := by
  have hden : n / d + w - n / d * w = (n + w * d - n * w) / d := by
    field_simp
  rw [hden, div_mul_eq_mul_div, div_div_div_cancel_right₀ hd]

private theorem formula_hamacher_assoc (hu : u ∈ Icc (0 : ℚ) 1) (hv : v ∈ Icc (0 : ℚ) 1)
    (hw : w ∈ Icc (0 : ℚ) 1) :
    hamacher.formula (hamacher.formula u v) w = hamacher.formula u (hamacher.formula v w) := by
  -- a middle zero would leave both inner denominators without a bound
  rcases hv.1.eq_or_lt with rfl | hpos
  · have hzero {x : ℚ} (hx : x ∈ Icc (0 : ℚ) 1) : hamacher.formula x 0 = 0 := by
      rw [formula_comm, formula_zero_left hamacher hx]
    rw [hzero hu, formula_zero_left hamacher hw, hzero hu]
  · have hleft := sum_sub_mul_pos hpos hu hv.2
    have hright := sum_sub_mul_pos hpos hw hv.2
    rw [formula_comm hamacher u v, formula_comm hamacher u (hamacher.formula v w)]
    simp only [formula_hamacher]
    rw [hamacher_nested hleft.ne', hamacher_nested hright.ne']
    congr 1 <;> ring

private theorem formula_nilpotent_assoc (hu : u ∈ Icc (0 : ℚ) 1) (hw : w ∈ Icc (0 : ℚ) 1) :
    nilpotent.formula (nilpotent.formula u v) w = nilpotent.formula u (nilpotent.formula v w) := by
  have hu1 := hu.2
  have hw1 := hw.2
  simp only [formula]
  grind

theorem formula_assoc (norm : TNorm) (hu : u ∈ Icc (0 : ℚ) 1) (hv : v ∈ Icc (0 : ℚ) 1)
    (hw : w ∈ Icc (0 : ℚ) 1) :
    norm.formula (norm.formula u v) w = norm.formula u (norm.formula v w) := by
  cases norm with
  | minimum => exact min_assoc u v w
  | product => exact mul_assoc u v w
  | lukasiewicz => exact formula_lukasiewicz_assoc hu hw
  | drastic => exact formula_drastic_assoc hu hv hw
  | einstein => exact formula_einstein_assoc hu hv hw
  | hamacher => exact formula_hamacher_assoc hu hv hw
  | nilpotent => exact formula_nilpotent_assoc hu hw

end TNorm

/-! ## Laws of the conorms -/

namespace TConorm

theorem formula_eq_dual (conorm : TConorm) (hu : u ∈ Icc (0 : ℚ) 1) (hv : v ∈ Icc (0 : ℚ) 1) :
    conorm.formula u v = 1 - conorm.dual.formula (1 - u) (1 - v) := by
  have hone (x : ℚ) : 1 - x = 1 ↔ x = 0 := by rw [sub_eq_self]
  cases conorm with
  | maximum => simp only [formula, dual, TNorm.formula, min_sub_sub_left, sub_sub_cancel]
  | probabilistic =>
      simp only [formula, dual, TNorm.formula]
      ring
  | bounded =>
      have hsum : 1 - u + (1 - v) - 1 = 1 - (u + v) := by ring
      rw [formula, dual, TNorm.formula, hsum, ← sub_self (1 : ℚ), max_sub_sub_left, sub_sub_cancel]
  | drastic =>
      simp only [formula, dual, TNorm.formula, hone, min_sub_sub_left]
      split_ifs
      · rw [sub_sub_cancel]
      · rw [sub_zero]
  | einstein =>
      have hden : (1 : ℚ) + u * v ≠ 0 := by linarith [mul_nonneg hu.1 hv.1]
      have hsub : 2 - (1 - u + (1 - v) - (1 - u) * (1 - v)) = 1 + u * v := by ring
      rw [formula, dual, TNorm.formula, hsub]
      field_simp
      ring
  | hamacher =>
      have hsub : 1 - u + (1 - v) - (1 - u) * (1 - v) = 1 - u * v := by ring
      rw [formula, dual, TNorm.formula_hamacher, hsub]
      split_ifs with hones
      · rw [hones.1, sub_self, zero_mul, zero_div, sub_zero]
      · have hden : 1 - u * v ≠ 0 := by
          intro hzero
          have hu1 : u = 1 := by nlinarith [hu.1, hu.2, hv.1, hv.2]
          have hv1 : v = 1 := by nlinarith [hu.1, hu.2, hv.1, hv.2]
          exact hones ⟨hu1, hv1⟩
        field_simp
        ring
  | nilpotent =>
      have hsum : 1 < 1 - u + (1 - v) ↔ u + v < 1 := by
        constructor <;> intro hlt <;> linarith
      simp only [formula, dual, TNorm.formula, hsum, min_sub_sub_left]
      split_ifs
      · rw [sub_sub_cancel]
      · rw [sub_zero]

theorem formula_mem (conorm : TConorm) (hu : u ∈ Icc (0 : ℚ) 1) (hv : v ∈ Icc (0 : ℚ) 1) :
    conorm.formula u v ∈ Icc (0 : ℚ) 1 := by
  rw [conorm.formula_eq_dual hu hv]
  exact complement_mem (conorm.dual.formula_mem (complement_mem hu) (complement_mem hv))

end TConorm

/-! ## Operations on degrees -/

structure IsTriangular (neutral : Degree ℚ) (op : Degree ℚ → Degree ℚ → Degree ℚ) : Prop where
  comm : ∀ a b, op a b = op b a
  assoc : ∀ a b c, op (op a b) c = op a (op b c)
  mono : ∀ a a' b b', a ≤ a' → b ≤ b' → op a b ≤ op a' b'
  neutral : ∀ a, op a neutral = a

theorem Degree.mem_Icc (a : Degree ℚ) : a.value ∈ Icc (0 : ℚ) 1 := ⟨a.nonneg, a.le_one⟩

def TNorm.exact (norm : TNorm) (a b : Degree ℚ) : Degree ℚ :=
  ⟨norm.formula a.value b.value, (norm.formula_mem a.mem_Icc b.mem_Icc).1,
    (norm.formula_mem a.mem_Icc b.mem_Icc).2⟩

def TConorm.exact (conorm : TConorm) (a b : Degree ℚ) : Degree ℚ :=
  ⟨conorm.formula a.value b.value, (conorm.formula_mem a.mem_Icc b.mem_Icc).1,
    (conorm.formula_mem a.mem_Icc b.mem_Icc).2⟩

theorem TNorm.isTriangular_exact (norm : TNorm) : IsTriangular 1 norm.exact where
  comm a b := Degree.ext (norm.formula_comm _ _)
  assoc a b c := Degree.ext (norm.formula_assoc a.mem_Icc b.mem_Icc c.mem_Icc)
  mono a a' b b' ha hb := by
    have hleft := norm.formula_mono_left a.mem_Icc a'.mem_Icc b.mem_Icc ha
    have hright := norm.formula_mono_left b.mem_Icc b'.mem_Icc a'.mem_Icc hb
    rw [norm.formula_comm, norm.formula_comm b'.value] at hright
    exact hleft.trans hright
  neutral a := Degree.ext (norm.formula_one a.mem_Icc)

/-- De Morgan's law for two degrees. -/
theorem TConorm.exact_eq_dual (conorm : TConorm) (a b : Degree ℚ) :
    conorm.exact a b = (conorm.dual.exact a.complement b.complement).complement := by
  apply Degree.ext
  rw [Rational.value_complement]
  change conorm.formula a.value b.value =
    1 - conorm.dual.formula a.complement.value b.complement.value
  rw [Rational.value_complement, Rational.value_complement]
  exact conorm.formula_eq_dual a.mem_Icc b.mem_Icc

/-- Counting degrees from 1 downwards makes a law of AND one of OR. -/
theorem IsTriangular.dual {neutral : Degree ℚ} {op : Degree ℚ → Degree ℚ → Degree ℚ}
    (h : IsTriangular neutral op) :
    IsTriangular neutral.complement fun a b => (op a.complement b.complement).complement where
  comm a b := by rw [h.comm]
  assoc a b c := by rw [Rational.complement_complement, Rational.complement_complement, h.assoc]
  mono a a' b b' ha hb := by
    apply Rational.complement_le_complement
    exact h.mono _ _ _ _ (Rational.complement_le_complement ha)
      (Rational.complement_le_complement hb)
  neutral a := by
    rw [Rational.complement_complement, h.neutral, Rational.complement_complement]

theorem TConorm.isTriangular_exact (conorm : TConorm) : IsTriangular 0 conorm.exact := by
  have hzero : (1 : Degree ℚ).complement = 0 := by
    apply Degree.ext
    rw [Rational.value_complement]
    exact sub_self 1
  have hdual := conorm.dual.isTriangular_exact.dual
  rw [hzero, ← funext₂ conorm.exact_eq_dual] at hdual
  exact hdual

/-! ## Evaluation -/

theorem probabilisticSum_eq (u v : ℚ) : probabilisticSum u v = u + v - u * v := by
  rw [probabilisticSum]
  split_ifs <;> ring

/-- A guard against a denominator of 0 makes no difference where a quotient by
0 is 0 anyway. -/
private theorem guardedQuotient_zero (n : ℚ) {d : ℚ} (hd : 0 ≤ d) :
    guardedQuotient n d 0 = n / d := by
  rw [guardedQuotient]
  split_ifs with hzero
  · rw [le_antisymm hzero hd, div_zero]
  · rfl

namespace TNorm

private theorem ofRounded_exact (norm : TNorm) (a b : Degree ℚ) {q : ℚ}
    (h : q = norm.formula a.value b.value) : Degree.ofRounded q = .ok (norm.exact a b) := by
  subst h
  exact Rational.ofRounded_eq (norm.formula_mem a.mem_Icc b.mem_Icc)

private theorem ok_exact (norm : TNorm) (a b : Degree ℚ) {d : Degree ℚ}
    (h : d.value = norm.formula a.value b.value) :
    (.ok d : Except (Fault ℚ) (Degree ℚ)) = .ok (norm.exact a b) :=
  congrArg Except.ok (Degree.ext h)

theorem evaluate_eq_exact (norm : TNorm) (a b : Degree ℚ) :
    norm.evaluate a b = .ok (norm.exact a b) := by
  cases norm with
  | minimum => exact ok_exact minimum a b (Rational.value_min a b)
  | product => exact ok_exact product a b (Rational.value_mul a b)
  | lukasiewicz =>
      apply ofRounded_exact
      rw [Rational.larger_eq, formula]
      congr 1
      ring
  | drastic =>
      refine ok_exact drastic a b ?_
      rw [formula]
      simp only [Rational.ranks.isOne_max_iff, Rational.isOne_iff]
      split_ifs
      · exact Rational.value_min a b
      · rfl
  | einstein =>
      apply ofRounded_exact
      have hden := one_le_einstein_denominator a.mem_Icc b.mem_Icc
      rw [Rational.two_eq, probabilisticSum_eq, guardedQuotient_zero _ (by linarith), formula]
  | hamacher =>
      apply ofRounded_exact
      have hden : 0 ≤ a.value * (1 - b.value) + b.value :=
        add_nonneg (mul_nonneg a.nonneg (sub_nonneg.2 b.le_one)) b.nonneg
      rw [probabilisticSum_eq, guardedQuotient_zero _ (by linarith), formula_hamacher]
  | nilpotent =>
      refine ok_exact nilpotent a b ?_
      rw [formula]
      split_ifs
      · exact Rational.value_min a b
      · rfl

end TNorm

namespace TConorm

private theorem ofRounded_exact (conorm : TConorm) (a b : Degree ℚ) {q : ℚ}
    (h : q = conorm.formula a.value b.value) : Degree.ofRounded q = .ok (conorm.exact a b) := by
  subst h
  exact Rational.ofRounded_eq (conorm.formula_mem a.mem_Icc b.mem_Icc)

private theorem ok_exact (conorm : TConorm) (a b : Degree ℚ) {d : Degree ℚ}
    (h : d.value = conorm.formula a.value b.value) :
    (.ok d : Except (Fault ℚ) (Degree ℚ)) = .ok (conorm.exact a b) :=
  congrArg Except.ok (Degree.ext h)

theorem evaluate_eq_exact (conorm : TConorm) (a b : Degree ℚ) :
    conorm.evaluate a b = .ok (conorm.exact a b) := by
  cases conorm with
  | maximum => exact ok_exact maximum a b (Rational.value_max a b)
  | probabilistic =>
      apply ofRounded_exact
      exact probabilisticSum_eq _ _
  | bounded =>
      apply ofRounded_exact
      exact Rational.smaller_eq _ _
  | drastic =>
      refine ok_exact drastic a b ?_
      rw [formula]
      simp only [Rational.ranks.isZero_min_iff, Rational.isZero_iff]
      split_ifs
      · exact Rational.value_max a b
      · rfl
  | einstein =>
      apply ofRounded_exact
      rfl
  | hamacher =>
      apply ofRounded_exact
      have hle := (formula_mem hamacher a.mem_Icc b.mem_Icc).2
      have hprod : a.value * b.value ≤ 1 := mul_le_one₀ a.le_one b.nonneg b.le_one
      rw [Rational.smaller_eq, Rational.two_eq, guardedQuotient]
      rw [formula] at hle ⊢
      split_ifs at hle ⊢ with hguard hones hones
      · exact min_self 1
      · have ha : a.value = 1 := by nlinarith [a.nonneg, a.le_one, b.nonneg, b.le_one]
        have hb : b.value = 1 := by nlinarith [a.nonneg, a.le_one, b.nonneg, b.le_one]
        exact absurd ⟨ha, hb⟩ hones
      · rw [hones.1, hones.2] at hguard
        exact absurd (by norm_num) hguard
      · exact min_eq_left hle
  | nilpotent =>
      refine ok_exact nilpotent a b ?_
      rw [formula]
      split_ifs
      · exact Rational.value_max a b
      · rfl

end TConorm

instance : TotalNorms ℚ where
  conjunction norm a b := ⟨_, norm.evaluate_eq_exact a b⟩
  disjunction conorm a b := ⟨_, conorm.evaluate_eq_exact a b⟩

/-- In exact arithmetic every norm gives a degree for any two degrees, the one
that its formula says, and so AND is read by t-norms and OR by t-conorms. -/
theorem norms_are_triangular :
    (∀ norm : TNorm, (∀ a b : Degree ℚ, norm.evaluate a b = .ok (norm.exact a b)) ∧
      IsTriangular 1 norm.exact) ∧
    ∀ conorm : TConorm, (∀ a b : Degree ℚ, conorm.evaluate a b = .ok (conorm.exact a b)) ∧
      IsTriangular 0 conorm.exact :=
  ⟨fun norm => ⟨norm.evaluate_eq_exact, norm.isTriangular_exact⟩,
    fun conorm => ⟨conorm.evaluate_eq_exact, conorm.isTriangular_exact⟩⟩

end FuzzyInference
