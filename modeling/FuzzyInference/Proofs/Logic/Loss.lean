import FuzzyInference.Proofs.Logic.Closure

/-!
# What rounding takes from a disjunction

In double precision six of the conorms keep a disjunction within the tolerance
of its truest part.  The Hamacher sum does not: close to 1 its denominator is a
difference of almost equal numbers, and the less is left of that, the more of
the truth the sum can lose.
-/

namespace FuzzyInference

open Binary

/-! ## Rounding errors -/

namespace Binary

variable {a b : Float} {u v x y : ℚ}

private theorem min_one_sub_le_rounded (h : 0 ≤ x) : min x 1 - 2 ^ (-54 : ℤ) ≤ rounded x := by
  rcases le_total x 1 with hx | hx
  · rw [min_eq_left hx]
    linarith [(abs_le.1 (abs_rounded_sub_le_of_le_one h hx)).1]
  · have hone := le_rounded isValue_one.isDouble hx
    rw [min_eq_right hx]
    linarith [two_zpow_pos (-54)]

theorem IsValue.sub_tolerance_le (ha : IsValue a x) (hb : IsValue b y) (h0 : 0 ≤ x) (h1 : x ≤ 1)
    (h : x - 2 ^ (-40 : ℤ) ≤ y) : a - Scalar.tolerance ≤ b := by
  obtain ⟨t, ht, hlo, hhi⟩ := exists_tolerance
  have hpos := two_zpow_pos (-40)
  have hsub := ha.sub ht (inRange_of_abs_le_two (abs_le.2 ⟨by linarith, by linarith⟩))
  exact (hsub.le_iff hb).2 (rounded_le hb.isDouble (by linarith))

theorem IsValue.magnitude_sub_le_tolerance (ha : IsValue a x) (hb : IsValue b x) :
    Scalar.magnitude (a - b) ≤ Scalar.tolerance := by
  obtain ⟨t, ht, hlo, -⟩ := exists_tolerance
  have hzero : rounded (x - x) = 0 := by rw [sub_self, rounded_of_isDouble isValue_zero.isDouble]
  have hsub : IsValue (a - b) 0 := by
    rw [← hzero]
    exact ha.sub hb (by rw [sub_self]; exact inRange_of_abs_le_two (by norm_num))
  have hnonneg : ¬ a - b < 0 := fun hlt => lt_irrefl _ ((hsub.lt_iff isValue_zero).1 hlt)
  rw [Scalar.magnitude, if_neg hnonneg]
  exact (hsub.le_iff ht).2 ((two_zpow_pos (-40)).le.trans hlo)

end Binary

/-! ## Rounded formulas -/

namespace TConorm

variable {a b : Float} {u v : ℚ}

theorem roundedFormula_comm (conorm : TConorm) (u v : ℚ) :
    conorm.roundedFormula u v = conorm.roundedFormula v u := by
  have hdouble : 2 * u * v = 2 * v * u := mul_right_comm 2 u v
  cases conorm with
  | maximum => exact max_comm u v
  | probabilistic => simp only [roundedFormula, roundedSum, max_comm, min_comm]
  | bounded => simp only [roundedFormula, add_comm]
  | drastic => simp only [roundedFormula, or_comm, max_comm]
  | einstein => simp only [roundedFormula, add_comm, mul_comm]
  | hamacher => rw [roundedFormula, roundedFormula, hdouble, add_comm u, mul_comm u]
  | nilpotent => simp only [roundedFormula, add_comm, max_comm]

theorem roundedFormula_zero (conorm : TConorm) (ha : InUnit a u) :
    conorm.roundedFormula u 0 = u := by
  have hu := rounded_of_isDouble ha.isValue.isDouble
  have hzero := rounded_of_isDouble isValue_zero.isDouble
  have hone := rounded_of_isDouble isValue_one.isDouble
  have hmax := max_eq_left ha.nonneg
  have hmin := min_eq_left ha.le_one
  cases conorm with
  | maximum => exact hmax
  | probabilistic =>
      rw [roundedFormula, roundedSum, hmax, min_eq_right ha.nonneg, zero_mul, hzero, add_zero, hu]
  | bounded => rw [roundedFormula, add_zero, hu, hmin]
  | drastic => rw [roundedFormula, if_pos (.inr rfl), hmax]
  | einstein =>
      rw [roundedFormula, add_zero, mul_zero, hzero, add_zero, hu, hone, div_one, hu, hmin]
  | hamacher =>
      rw [roundedFormula, add_zero, mul_zero, mul_zero, hzero, sub_zero, sub_zero, hu, hu, hone,
        div_one, hu, if_neg (by norm_num), hmin]
  | nilpotent =>
      rw [roundedFormula, add_zero, hu, hmax]
      split_ifs with hlt
      · rfl
      · exact le_antisymm (not_lt.1 hlt) ha.le_one

/-! ## Losses -/

/-- Errors of the numerator and of the denominator are carried over to a
quotient in inverse proportion to the denominator. -/
private theorem quotient_loss {n d n' d' e f : ℚ} (hn' : 0 ≤ n') (hd' : 0 < d') (hd : 0 ≤ d)
    (hu : u ≤ 1) (hle : u * d ≤ n) (hn : n - e ≤ n') (hdd' : d' ≤ d + f) (he : 0 ≤ e)
    (hf : 0 ≤ f) :
    d * (u - min (rounded (n' / d')) 1) ≤ e + f + d * 2 ^ (-54 : ℤ) := by
  have hq0 : 0 ≤ n' / d' := div_nonneg hn' hd'.le
  have hrounded : min (n' / d') 1 - 2 ^ (-54 : ℤ) ≤ min (rounded (n' / d')) 1 :=
    le_min (min_one_sub_le_rounded hq0)
      (by linarith [min_le_right (n' / d') 1, two_zpow_pos (-54)])
  have hexact : d * (u - min (n' / d') 1) ≤ e + f := by
    rcases le_total (n' / d') 1 with hq | hq
    · have hscale : (d' - f) * (n' / d') ≤ d * (n' / d') :=
        mul_le_mul_of_nonneg_right (by linarith) hq0
      have hsmall : f * (n' / d') ≤ f := mul_le_of_le_one_right hf hq
      have hcancel : d' * (n' / d') = n' := mul_div_cancel₀ n' hd'.ne'
      rw [min_eq_left hq]
      linarith
    · rw [min_eq_right hq]
      linarith [mul_nonneg hd (sub_nonneg.2 hu)]
  calc d * (u - min (rounded (n' / d')) 1) ≤ d * (u - min (n' / d') 1 + 2 ^ (-54 : ℤ)) :=
        mul_le_mul_of_nonneg_left (by linarith) hd
    _ = d * (u - min (n' / d') 1) + d * 2 ^ (-54 : ℤ) := mul_add _ _ _
    _ ≤ e + f + d * 2 ^ (-54 : ℤ) := add_le_add_left hexact _

private theorem einstein_loss (ha : InUnit a u) (hb : InUnit b v) :
    u - 2 ^ (-51 : ℤ) ≤ einstein.roundedFormula u v := by
  have hsum := add_nonneg ha.nonneg hb.nonneg
  have huv := mul_nonneg ha.nonneg hb.nonneg
  have huv' := mul_le_one₀ ha.le_one hb.nonneg hb.le_one
  have hp := ha.mul hb
  have hle : u * (1 + u * v) ≤ u + v := by
    have hsquare := mul_le_one₀ ha.le_one ha.nonneg ha.le_one
    linarith [mul_le_of_le_one_left hb.nonneg hsquare]
  have hnumerator : u + v - 2 ^ (-53 : ℤ) ≤ rounded (u + v) := by
    have herror := abs_rounded_sub_le_of_le_two hsum (by linarith [ha.le_one, hb.le_one])
    linarith [(abs_le.1 herror).1]
  have hpositive : 1 ≤ rounded (1 + rounded (u * v)) :=
    le_rounded isValue_one.isDouble (by linarith [hp.nonneg])
  have hdenominator : rounded (1 + rounded (u * v)) ≤
      1 + u * v + (2 ^ (-53 : ℤ) + 2 ^ (-54 : ℤ)) := by
    have hproduct := abs_rounded_sub_le_of_le_one huv huv'
    have herror : |rounded (1 + rounded (u * v)) - (1 + rounded (u * v))| ≤ 2 ^ (-53 : ℤ) :=
      abs_rounded_sub_le_of_le_two (by linarith [hp.nonneg]) (by linarith [hp.le_one])
    linarith [(abs_le.1 hproduct).2, (abs_le.1 herror).2]
  have hloss := quotient_loss (rounded_nonneg hsum) (zero_lt_one.trans_le hpositive)
    (by linarith) ha.le_one hle hnumerator hdenominator (two_zpow_pos _).le
    (add_pos (two_zpow_pos _) (two_zpow_pos _)).le
  -- the denominator is at least 1, so the loss itself is not above that of its product
  by_contra hlt
  have hlost : 0 ≤ u - einstein.roundedFormula u v := by linarith [two_zpow_pos (-51)]
  have hscale : u - einstein.roundedFormula u v ≤ (1 + u * v) * (u - einstein.roundedFormula u v) :=
    le_mul_of_one_le_left hlost (by linarith)
  change (1 + u * v) * (u - einstein.roundedFormula u v) ≤ _ at hloss
  norm_num at hlt hloss
  linarith

/-- The exact numerator is above `u` parts of the denominator by
`v * (1 - u) ^ 2`, and all three of its operations are rounded. -/
private theorem hamacher_numerator_ge (ha : InUnit a u) (hb : InUnit b v) :
    u * (1 - u * v) - (2 ^ (-52 : ℤ) + 2 ^ (-54 : ℤ)) ≤
      rounded (rounded (u + v) - rounded (2 * u * v)) := by
  have hu := ha.nonneg
  have hv := hb.nonneg
  have huv := mul_nonneg hu hv
  have huv' := mul_le_one₀ ha.le_one hv hb.le_one
  have hsum : |rounded (u + v) - (u + v)| ≤ 2 ^ (-53 : ℤ) :=
    abs_rounded_sub_le_of_le_two (add_nonneg hu hv) (by linarith [ha.le_one, hb.le_one])
  have hcross : |rounded (2 * u * v) - 2 * u * v| ≤ 2 ^ (-53 : ℤ) :=
    abs_rounded_sub_le_of_le_two (by linarith) (by linarith)
  have hle : u * (1 - u * v) ≤ u + v - 2 * u * v := by
    linarith [mul_nonneg hv (sq_nonneg (1 - u))]
  have hle' : u * (1 - u * v) ≤ 1 := mul_le_one₀ ha.le_one (by linarith) (by linarith)
  have hmin : u * (1 - u * v) - 2 ^ (-52 : ℤ) ≤
      min (rounded (u + v) - rounded (2 * u * v)) 1 := by
    refine le_min ?_ (by linarith [two_zpow_pos (-52)])
    have hsum' := (abs_le.1 hsum).1
    have hcross' := (abs_le.1 hcross).2
    norm_num at hsum' hcross' ⊢
    linarith
  linarith [min_one_sub_le_rounded (sub_nonneg.2 (ha.rounded_two_mul_le hb))]

private theorem hamacher_loss (ha : InUnit a u) (hb : InUnit b v) :
    (1 - u * v) * (u - hamacher.roundedFormula u v) ≤ 2 ^ (-51 : ℤ) := by
  have huv := mul_nonneg ha.nonneg hb.nonneg
  have huv' := mul_le_one₀ ha.le_one hb.nonneg hb.le_one
  have hp := ha.mul hb
  rw [roundedFormula]
  split_ifs with hzero
  · have hnone := mul_nonneg (sub_nonneg.2 huv') (sub_nonneg.2 ha.le_one)
    linarith [two_zpow_pos (-51)]
  · have hdenominator : rounded (1 - rounded (u * v)) ≤ 1 - u * v + 2 ^ (-53 : ℤ) := by
      have hproduct := (abs_le.1 (abs_rounded_sub_le_of_le_one huv huv')).1
      have hcomplement := (abs_le.1 (abs_rounded_sub_le_of_le_one (sub_nonneg.2 hp.le_one)
        (sub_le_self 1 hp.nonneg))).2
      norm_num at hproduct hcomplement ⊢
      linarith
    have hloss := quotient_loss (rounded_nonneg (sub_nonneg.2 (ha.rounded_two_mul_le hb)))
      (not_le.1 hzero) (sub_nonneg.2 huv') ha.le_one le_rfl (hamacher_numerator_ge ha hb)
      hdenominator (add_pos (two_zpow_pos _) (two_zpow_pos _)).le (two_zpow_pos _).le
    refine hloss.trans ?_
    norm_num
    linarith

theorem max_sub_le_roundedFormula {conorm : TConorm} (hne : conorm ≠ hamacher) (ha : InUnit a u)
    (hb : InUnit b v) : max u v - 2 ^ (-51 : ℤ) ≤ conorm.roundedFormula u v := by
  have hmax := max_le ha.le_one hb.le_one
  by_cases heinstein : conorm = einstein
  · subst heinstein
    rcases max_choice u v with h | h <;> rw [h]
    · exact einstein_loss ha hb
    · rw [roundedFormula_comm]
      exact einstein_loss hb ha
  · refine (sub_le_self _ (two_zpow_pos _).le).trans ?_
    cases conorm with
    | maximum => exact le_rfl
    | probabilistic => exact ha.max_le_roundedSum hb
    | bounded =>
        refine le_min (max_le ?_ ?_) hmax
        · exact le_rounded ha.isValue.isDouble (le_add_of_nonneg_right hb.nonneg)
        · exact le_rounded hb.isValue.isDouble (le_add_of_nonneg_left ha.nonneg)
    | drastic =>
        rw [roundedFormula]
        split_ifs
        · exact le_rfl
        · exact hmax
    | einstein => exact absurd rfl heinstein
    | hamacher => exact absurd rfl hne
    | nilpotent =>
        rw [roundedFormula]
        split_ifs
        · exact le_rfl
        · exact hmax

/-- What a disjunction can lose of its greater part is in inverse proportion to
what the product of the two leaves to 1. -/
theorem loss_le (conorm : TConorm) (ha : InUnit a u) (hb : InUnit b v) :
    (1 - u * v) * (max u v - conorm.roundedFormula u v) ≤ 2 ^ (-51 : ℤ) := by
  have huv := mul_nonneg ha.nonneg hb.nonneg
  have huv' := mul_le_one₀ ha.le_one hb.nonneg hb.le_one
  by_cases hne : conorm = hamacher
  · subst hne
    rcases max_choice u v with h | h <;> rw [h]
    · exact hamacher_loss ha hb
    · rw [roundedFormula_comm, mul_comm u]
      exact hamacher_loss hb ha
  · calc (1 - u * v) * (max u v - conorm.roundedFormula u v)
        ≤ (1 - u * v) * 2 ^ (-51 : ℤ) := by
          refine mul_le_mul_of_nonneg_left ?_ (sub_nonneg.2 huv')
          linarith [max_sub_le_roundedFormula hne ha hb]
      _ ≤ 2 ^ (-51 : ℤ) := mul_le_of_le_one_left (two_zpow_pos _).le (sub_le_self 1 huv)

private theorem sub_le_of_loss_le {d x y : ℚ} (hd : 2 ^ (-11 : ℤ) ≤ d)
    (h : d * (x - y) ≤ 2 ^ (-51 : ℤ)) : x - 2 ^ (-40 : ℤ) ≤ y := by
  by_contra hlt
  have hlarge : 2 ^ (-11 : ℤ) * 2 ^ (-40 : ℤ) < d * (x - y) :=
    mul_lt_mul' hd (by linarith) (two_zpow_pos _).le ((two_zpow_pos _).trans_le hd)
  norm_num at hlarge h
  linarith

/-! ## Bounds -/

section Bounds

variable (conorm : TConorm) (a b : Degree Float)

def KeepsGreater : Prop :=
  ∃ d, conorm.evaluate a b = .ok d ∧ (max a b).value - Scalar.tolerance ≤ d.value

def Commutes : Prop :=
  ∃ d d', conorm.evaluate a b = .ok d ∧ conorm.evaluate b a = .ok d' ∧
    Scalar.magnitude (d.value - d'.value) ≤ Scalar.tolerance

def NeutralZero : Prop :=
  ∃ d, conorm.evaluate a 0 = .ok d ∧ Scalar.magnitude (d.value - a.value) ≤ Scalar.tolerance

def AbsorbingOne : Prop := ∃ d, conorm.evaluate a 1 = .ok d ∧ 1 - Scalar.tolerance ≤ d.value

/-- What is expected of a disjunction of two degrees, up to the tolerance. -/
structure KeepsBounds : Prop where
  greater : conorm.KeepsGreater a b
  commutes : conorm.Commutes a b
  zero : conorm.NeutralZero a
  one : conorm.AbsorbingOne a

end Bounds

variable {conorm : TConorm} {a b : Degree Float} {u v : ℚ}

private theorem keepsGreater_of_le (ha : InUnit a.value u) (hb : InUnit b.value v)
    (h : max u v - 2 ^ (-40 : ℤ) ≤ conorm.roundedFormula u v) : conorm.KeepsGreater a b := by
  obtain ⟨d, hd, hvalue⟩ := conorm.evaluate_rounded ha hb
  have hmax := Degree.isValue_max ha.isValue hb.isValue
  exact ⟨d, hd, hmax.sub_tolerance_le hvalue (le_max_of_le_left ha.nonneg)
    (max_le ha.le_one hb.le_one) h⟩

private theorem absorbingOne_of_le (ha : InUnit a.value u)
    (h : max u 1 - 2 ^ (-40 : ℤ) ≤ conorm.roundedFormula u 1) : conorm.AbsorbingOne a := by
  have hone : InUnit (1 : Degree Float).value 1 := ⟨isValue_one, zero_le_one, le_rfl⟩
  obtain ⟨d, hd, hvalue⟩ := conorm.evaluate_rounded ha hone
  rw [max_eq_right ha.le_one] at h
  exact ⟨d, hd, isValue_one.sub_tolerance_le hvalue zero_le_one le_rfl h⟩

theorem commutes (conorm : TConorm) (a b : Degree Float) : conorm.Commutes a b := by
  obtain ⟨u, ha⟩ := a.exists_inUnit
  obtain ⟨v, hb⟩ := b.exists_inUnit
  obtain ⟨d, hd, hvalue⟩ := conorm.evaluate_rounded ha hb
  obtain ⟨d', hd', hvalue'⟩ := conorm.evaluate_rounded hb ha
  rw [conorm.roundedFormula_comm v u] at hvalue'
  exact ⟨d, d', hd, hd', hvalue.magnitude_sub_le_tolerance hvalue'⟩

theorem neutralZero (conorm : TConorm) (a : Degree Float) : conorm.NeutralZero a := by
  obtain ⟨u, ha⟩ := a.exists_inUnit
  have hzero : InUnit (0 : Degree Float).value 0 := InUnit.zero
  obtain ⟨d, hd, hvalue⟩ := conorm.evaluate_rounded ha hzero
  rw [conorm.roundedFormula_zero ha] at hvalue
  exact ⟨d, hd, hvalue.magnitude_sub_le_tolerance ha.isValue⟩

/-- In double precision a disjunction is the same in either order, and the other
part where one does not hold at all, up to the tolerance.  Unless it is a
Hamacher sum it also keeps its truest part, and full truth where one part holds
fully.  What any disjunction loses of its truest part is at most `2 ^ (-51)`
divided by what the product of the two degrees leaves to 1, so the Hamacher sum
keeps it as well where that is not less than `2 ^ (-11)`. -/
theorem keepsBounds (conorm : TConorm) (a b : Degree Float) :
    (conorm ≠ hamacher → conorm.KeepsBounds a b) ∧ conorm.Commutes a b ∧ conorm.NeutralZero a ∧
    ∃ u v : ℚ, IsValue a.value u ∧ IsValue b.value v ∧
      (∃ d x, conorm.evaluate a b = .ok d ∧ IsValue d.value x ∧
        (1 - u * v) * (max u v - x) ≤ 2 ^ (-51 : ℤ)) ∧
      (2 ^ (-11 : ℤ) ≤ 1 - u * v → conorm.KeepsGreater a b) ∧
      (2 ^ (-11 : ℤ) ≤ 1 - u → conorm.AbsorbingOne a) := by
  obtain ⟨u, ha⟩ := a.exists_inUnit
  obtain ⟨v, hb⟩ := b.exists_inUnit
  have hone : InUnit 1 1 := ⟨isValue_one, zero_le_one, le_rfl⟩
  refine ⟨fun hne => ?_, conorm.commutes a b, conorm.neutralZero a, u, v, ha.isValue, hb.isValue,
    ?_, fun hfar => ?_, fun hfar => ?_⟩
  · have hsmall : (2 : ℚ) ^ (-51 : ℤ) ≤ 2 ^ (-40 : ℤ) :=
      zpow_le_zpow_right₀ one_le_two (by norm_num)
    have hgreater := max_sub_le_roundedFormula hne ha hb
    have habsorbing := max_sub_le_roundedFormula hne ha hone
    exact ⟨keepsGreater_of_le ha hb (by linarith), conorm.commutes a b, conorm.neutralZero a,
      absorbingOne_of_le ha (by linarith)⟩
  · obtain ⟨d, hd, hvalue⟩ := conorm.evaluate_rounded ha hb
    exact ⟨d, _, hd, hvalue, conorm.loss_le ha hb⟩
  · exact keepsGreater_of_le ha hb (sub_le_of_loss_le hfar (conorm.loss_le ha hb))
  · rw [← mul_one u] at hfar
    exact absorbingOne_of_le ha (sub_le_of_loss_le hfar (conorm.loss_le ha hone))

/-- A degree three half-places below 1. -/
def almostTrue : Degree Float := ⟨0.9999999999999997, by decide +kernel, by decide +kernel⟩

def half : Degree Float := ⟨1 / 2, by decide +kernel, by decide +kernel⟩

def threeQuarters : Degree Float := ⟨3 / 4, by decide +kernel, by decide +kernel⟩

theorem isValue_half : IsValue half.value (1 / 2) := by
  have h := isValue_of_unpack (f := half.value) (m := 2 ^ 52) (e := -53) (by norm_num) rfl
    ⟨by norm_num, by norm_num, .inl le_rfl⟩
  norm_num at h
  exact h

theorem isValue_threeQuarters : IsValue threeQuarters.value (3 / 4) := by
  have h := isValue_of_unpack (f := threeQuarters.value) (m := 3 * 2 ^ 51) (e := -53) (by norm_num)
    rfl ⟨by norm_num, by norm_num, .inl (by norm_num)⟩
  norm_num at h
  exact h

theorem keepsBounds_of_almostTrue : einstein.KeepsBounds almostTrue 1 ∧
    hamacher.KeepsGreater 0 1 ∧ hamacher.AbsorbingOne 0 ∧
    hamacher.KeepsGreater half threeQuarters ∧ hamacher.AbsorbingOne half := by
  have hne : einstein ≠ hamacher := by decide
  obtain ⟨-, -, -, u, v, hu, -, -, hends, hzero⟩ := keepsBounds hamacher 0 1
  obtain ⟨-, -, -, u', v', hu', hv', -, hinner, hhalf⟩ := keepsBounds hamacher half threeQuarters
  obtain rfl : u = 0 := (hu.beq_iff isValue_zero).1 (by decide +kernel)
  obtain rfl : u' = 1 / 2 := (hu'.beq_iff isValue_half).1 (by decide +kernel)
  obtain rfl : v' = 3 / 4 := (hv'.beq_iff isValue_threeQuarters).1 (by decide +kernel)
  exact ⟨(keepsBounds einstein almostTrue 1).1 hne, hends (by norm_num), hzero (by norm_num),
    hinner (by norm_num), hhalf (by norm_num)⟩

/-- The Hamacher sum makes two thirds of what is almost and what is wholly
true. -/
theorem hamacher_almostTrue : ∃ d, hamacher.evaluate almostTrue 1 = .ok d ∧
    (d.value == 0.6666666666666666) = true ∧ ¬ hamacher.KeepsGreater almostTrue 1 ∧
    ¬ hamacher.AbsorbingOne almostTrue := by
  have hrun : ((hamacher.evaluate almostTrue 1).toOption.any fun d =>
      d.value == 0.6666666666666666 &&
        !decide ((max almostTrue 1).value - Scalar.tolerance ≤ d.value) &&
          !decide (1 - Scalar.tolerance ≤ d.value)) = true := by
    decide +kernel
  simp only [Option.any_eq_true, Bool.and_eq_true, Bool.not_eq_true', decide_eq_false_iff_not,
    Fallible.toOption_eq_some] at hrun
  obtain ⟨d, hd, ⟨hvalue, hgreater⟩, hone⟩ := hrun
  refine ⟨d, hd, hvalue, ?_, ?_⟩
  · rintro ⟨d', hd', hle⟩
    cases hd.symm.trans hd'
    exact hgreater hle
  · rintro ⟨d', hd', hle⟩
    cases hd.symm.trans hd'
    exact hone hle

end TConorm

end FuzzyInference
