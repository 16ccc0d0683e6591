import FuzzyInference.Proofs.Binary.Arithmetic
import FuzzyInference.Proofs.Logic.Evaluation
import FuzzyInference.Scalar.Binary

/-!
# Norms do not leave the unit interval

Every norm gives a degree for every two degrees of double precision.  What its
formula can exceed the unit interval by is rounding, and stays within what is
brought back to it.  A conorm gives the value of its formula with every
operation rounded.
-/

namespace FuzzyInference.Binary

/-! ## Constants -/

private theorem isDouble_one : IsDouble 1 := isValue_one.isDouble

private theorem isDouble_two : IsDouble 2 := isDouble_intCast (n := 2) (by norm_num)

theorem inRange_of_abs_le_two {x : ℚ} (h : |x| ≤ 2) : InRange x :=
  inRange_of_abs_le isDouble_two
    ((zpow_one (2 : ℚ)).symm.trans_lt (zpow_lt_zpow_right₀ one_lt_two (by norm_num))) h

theorem isValue_two : IsValue Scalar.two 2 := by
  have h := isValue_one.add isValue_one (inRange_of_abs_le_two (by norm_num))
  norm_num at h
  rw [rounded_of_isDouble isDouble_two] at h
  exact h

theorem exists_tolerance : ∃ t, IsValue Scalar.tolerance t ∧ 2 ^ (-40 : ℤ) ≤ t ∧ t ≤ 1 := by
  have hleast : IsValue (Float.ofBits 0x3D70000000000000) (2 ^ (-40 : ℤ)) := by
    have h := isValue_of_unpack (f := Float.ofBits 0x3D70000000000000) (m := 2 ^ 52) (e := -92)
      (by norm_num) rfl ⟨by norm_num, by norm_num, .inl le_rfl⟩
    norm_num at h ⊢
    exact h
  exact exists_isValue_of_between hleast isValue_one (by decide +kernel) (by decide +kernel)

private theorem isDouble_two_places_above_one : IsDouble (1 + 2 ^ (-51 : ℤ)) :=
  ⟨2 ^ 51 + 1, -51, by norm_num, by norm_num, by norm_num⟩

/-- The tolerance leaves room for two last places above 1. -/
private theorem le_one_add_tolerance {f : Float} {x : ℚ} (hf : IsValue f x)
    (hx : x ≤ 1 + 2 ^ (-51 : ℤ)) : f ≤ 1 + Scalar.tolerance := by
  obtain ⟨t, ht, hlo, hhi⟩ := exists_tolerance
  have hpos := two_zpow_pos (-40)
  have hsum := isValue_one.add ht
    (inRange_of_abs_le_two (abs_le.2 ⟨by linarith, by linarith⟩))
  have hplaces : (2 : ℚ) ^ (-51 : ℤ) ≤ 2 ^ (-40 : ℤ) :=
    zpow_le_zpow_right₀ one_le_two (by norm_num)
  have hroom := le_rounded isDouble_two_places_above_one
    (add_le_add_right (hplaces.trans hlo) 1)
  exact (hf.le_iff hsum).2 (hx.trans hroom)

/-! ## Rounding in the unit interval -/

theorem abs_rounded_sub_le_of_le_one {x : ℚ} (h0 : 0 ≤ x) (h1 : x ≤ 1) :
    |rounded x - x| ≤ 2 ^ (-54 : ℤ) := by
  have habs : |x| ≤ 2 ^ (0 : ℤ) := by
    rw [zpow_zero, abs_of_nonneg h0]
    exact h1
  exact abs_rounded_sub_le habs (by norm_num)

theorem abs_rounded_sub_le_of_le_two {x : ℚ} (h0 : 0 ≤ x) (h2 : x ≤ 2) :
    |rounded x - x| ≤ 2 ^ (-53 : ℤ) := by
  have habs : |x| ≤ 2 ^ (1 : ℤ) := by
    rw [zpow_one, abs_of_nonneg h0]
    exact h2
  exact abs_rounded_sub_le habs (by norm_num)

theorem rounded_le_one {x : ℚ} (h : x ≤ 1 + 2 ^ (-54 : ℤ)) : rounded x ≤ 1 := by
  have hhalf : x ≤ 2 ^ (0 : ℤ) + 2 ^ (0 - 53 : ℤ) := h.trans (by norm_num)
  exact (rounded_le_two_zpow (by norm_num) hhalf).trans (zpow_zero 2).le

/-- Below 1 the distance to 1 is at least half of a last place. -/
theorem IsDouble.add_le_one {x : ℚ} (h : IsDouble x) (hlt : x < 1) : x + 2 ^ (-53 : ℤ) ≤ 1 := by
  by_cases hhalf : x < 1 / 2
  · have hsmall : (2 : ℚ) ^ (-53 : ℤ) ≤ 1 / 2 := by norm_num
    exact (add_le_add hhalf.le hsmall).trans (by norm_num)
  · have hpos : 0 < x := by linarith
    -- from a half on the numbers are `2 ^ (-53)` apart
    have hplace : lastPlace x = -53 := by
      have hlo : (2 : ℚ) ^ (-1 : ℤ) ≤ |x| := by
        rw [abs_of_pos hpos]
        norm_num
        linarith
      have hhi : |x| < 2 ^ (-1 + 1 : ℤ) := by
        rw [abs_of_pos hpos]
        norm_num
        exact hlt
      rw [lastPlace_eq hlo hhi]
      rfl
    obtain ⟨n, hn⟩ := h.exists_grid
    rw [hplace] at hn
    have hlast : n < 2 ^ 53 := by
      have hscaled : (n : ℚ) * 2 ^ (-53 : ℤ) < 2 ^ 53 * 2 ^ (-53 : ℤ) := by
        rw [← hn]
        norm_num
        exact hlt
      exact_mod_cast lt_of_mul_lt_mul_right hscaled (two_zpow_pos _).le
    have hstep : ((n + 1 : ℤ) : ℚ) ≤ 2 ^ 53 := by exact_mod_cast hlast
    calc x + 2 ^ (-53 : ℤ) = ((n + 1 : ℤ) : ℚ) * 2 ^ (-53 : ℤ) := by
          rw [hn]
          push_cast
          ring
      _ ≤ 2 ^ 53 * 2 ^ (-53 : ℤ) := mul_le_mul_of_nonneg_right hstep (two_zpow_pos _).le
      _ = 1 := by norm_num

/-! ## Numbers of the unit interval -/

/-- A floating-point number of the unit interval and its value. -/
structure InUnit (f : Float) (x : ℚ) : Prop where
  isValue : IsValue f x
  nonneg : 0 ≤ x
  le_one : x ≤ 1

variable {a b : Float} {u v x y : ℚ}

namespace InUnit

theorem zero : InUnit 0 0 := ⟨isValue_zero, le_rfl, zero_le_one⟩

theorem complement (ha : InUnit a u) : InUnit (1 - a) (rounded (1 - u)) := by
  have hu := ha.nonneg
  have hu' := ha.le_one
  have habs : |1 - u| ≤ 2 := abs_le.2 ⟨by linarith, by linarith⟩
  exact ⟨isValue_one.sub ha.isValue (inRange_of_abs_le_two habs), rounded_nonneg (by linarith),
    rounded_le isDouble_one (by linarith)⟩

theorem rounded_mul_le (hu : u ≤ 1) (hb : InUnit b v) : rounded (u * v) ≤ v :=
  rounded_le hb.isValue.isDouble (mul_le_of_le_one_left hb.nonneg hu)

theorem mul (ha : InUnit a u) (hb : InUnit b v) : InUnit (a * b) (rounded (u * v)) := by
  have hnonneg := mul_nonneg ha.nonneg hb.nonneg
  have hle : u * v ≤ 1 := mul_le_one₀ ha.le_one hb.nonneg hb.le_one
  have habs : |u * v| ≤ 2 := abs_le.2 ⟨by linarith, by linarith⟩
  exact ⟨ha.isValue.mul hb.isValue (inRange_of_abs_le_two habs), rounded_nonneg hnonneg,
    rounded_le isDouble_one hle⟩

theorem div (ha : IsValue a x) (hb : IsValue b y) (hx : 0 ≤ x) (hxy : x ≤ y) (hy : 0 < y) :
    InUnit (a / b) (rounded (x / y)) := by
  have hle : x / y ≤ 1 := (div_le_one hy).2 hxy
  have hnonneg : 0 ≤ x / y := div_nonneg hx hy.le
  have habs : |x / y| ≤ 2 := abs_le.2 ⟨by linarith, by linarith⟩
  exact ⟨ha.div hb hy.ne' (inRange_of_abs_le_two habs), rounded_nonneg hnonneg,
    rounded_le isDouble_one hle⟩

end InUnit

theorem IsValue.isNaN_eq_false (ha : IsValue a x) : Scalar.isNaN a = false := by
  have hself : (a == a) = true := (ha.beq_iff ha).2 rfl
  rw [Scalar.isNaN, hself]
  rfl

theorem IsValue.larger (ha : IsValue a x) (hb : IsValue b y) :
    IsValue (Scalar.larger a b) (max x y) := by
  unfold Scalar.larger
  by_cases hlt : a < b
  · rw [if_pos (.inl hlt), max_eq_right ((ha.lt_iff hb).1 hlt).le]
    exact hb
  · have hle : y ≤ x := not_lt.1 (fun h => hlt ((ha.lt_iff hb).2 h))
    rw [if_neg (by simp [hlt, ha.isNaN_eq_false]), max_eq_left hle]
    exact ha

theorem IsValue.smaller (ha : IsValue a x) (hb : IsValue b y) :
    IsValue (Scalar.smaller a b) (min x y) := by
  unfold Scalar.smaller
  by_cases hlt : b < a
  · rw [if_pos (.inl hlt), min_eq_right ((hb.lt_iff ha).1 hlt).le]
    exact hb
  · have hle : x ≤ y := not_lt.1 (fun h => hlt ((hb.lt_iff ha).2 h))
    rw [if_neg (by simp [hlt, ha.isNaN_eq_false]), min_eq_left hle]
    exact ha

/-! ## Formulas of the norms -/

def roundedSum (u v : ℚ) : ℚ := rounded (max u v + rounded (min u v * rounded (1 - max u v)))

namespace InUnit

/-- The rounded `u + v * (1 - u)` stays in the unit interval. -/
private theorem sum_step (ha : InUnit a u) (hb : InUnit b v) (hvu : v ≤ u) :
    InUnit (a + b * (1 - a)) (rounded (u + rounded (v * rounded (1 - u)))) := by
  have hc := ha.complement
  have hp := hb.mul hc
  generalize hcr : rounded (1 - u) = c at hc hp
  generalize hpr : rounded (v * c) = p at hp
  have hpc : p ≤ c := hpr ▸ InUnit.rounded_mul_le hb.le_one hc
  have hpv : p ≤ v := by
    rw [← hpr, mul_comm]
    exact InUnit.rounded_mul_le hc.le_one hb
  have hsum : u + p ≤ 1 + 2 ^ (-54 : ℤ) := by
    by_cases hhalf : u ≤ 1 / 2
    · have hpos := two_zpow_pos (-54)
      linarith
    · -- the complement is at most a half, so rounding it loses little
      have hcomp : |1 - u| ≤ 2 ^ (-1 : ℤ) := by
        have hu := ha.le_one
        rw [abs_of_nonneg (by linarith)]
        norm_num
        linarith
      have herr := abs_rounded_sub_le hcomp (by norm_num)
      rw [hcr] at herr
      have hsmall : (2 : ℚ) ^ ((-1 : ℤ) - 54) ≤ 2 ^ (-54 : ℤ) :=
        zpow_le_zpow_right₀ one_le_two (by norm_num)
      have hupper := (abs_le.1 (herr.trans hsmall)).2
      linarith
  have hu := ha.nonneg
  have hp0 := hp.nonneg
  have habs : |u + p| ≤ 2 := abs_le.2 ⟨by linarith, by linarith [ha.le_one, hp.le_one]⟩
  exact ⟨ha.isValue.add hp.isValue (inRange_of_abs_le_two habs),
    rounded_nonneg (by linarith), rounded_le_one hsum⟩

theorem probabilisticSum (ha : InUnit a u) (hb : InUnit b v) :
    InUnit (probabilisticSum a b) (roundedSum u v) := by
  unfold FuzzyInference.probabilisticSum roundedSum
  by_cases hvu : v ≤ u
  · rw [if_pos ((hb.isValue.le_iff ha.isValue).2 hvu), max_eq_left hvu, min_eq_right hvu]
    exact ha.sum_step hb hvu
  · have huv := (not_le.1 hvu).le
    rw [if_neg (fun hle => hvu ((hb.isValue.le_iff ha.isValue).1 hle)), max_eq_right huv,
      min_eq_left huv]
    exact hb.sum_step ha huv

theorem max_le_roundedSum (ha : InUnit a u) (hb : InUnit b v) : max u v ≤ roundedSum u v := by
  have hdouble : IsDouble (max u v) := by
    rcases max_choice u v with h | h <;> rw [h]
    · exact ha.isValue.isDouble
    · exact hb.isValue.isDouble
  have hcomplement : 0 ≤ rounded (1 - max u v) :=
    rounded_nonneg (sub_nonneg.2 (max_le ha.le_one hb.le_one))
  have hproduct := rounded_nonneg (mul_nonneg (le_min ha.nonneg hb.nonneg) hcomplement)
  exact le_rounded hdouble (le_add_of_nonneg_right hproduct)

end InUnit

/-- Below 1, a quotient of the unit interval whose denominator is not smaller
than its numerator stays there, and so does the limit that replaces it. -/
theorem exists_guardedQuotient {l : Float} {z : ℚ} (ha : IsValue a x) (hb : IsValue b y)
    (hl : InUnit l z) (hx : 0 ≤ x) (hxy : x ≤ y) : ∃ q, InUnit (guardedQuotient a b l) q := by
  unfold guardedQuotient
  by_cases hy : y ≤ 0
  · rw [if_pos ((hb.le_iff isValue_zero).2 hy)]
    exact ⟨z, hl⟩
  · rw [if_neg (fun hle => hy ((hb.le_iff isValue_zero).1 hle))]
    exact ⟨_, InUnit.div ha hb hx hxy (not_le.1 hy)⟩

theorem IsDouble.two_mul (h : IsDouble x) : IsDouble (2 * x) := by
  obtain ⟨m, e, rfl, hm, he⟩ := h
  exact ⟨m, e + 1, by rw [zpow_add_one₀ two_ne_zero]; ring, hm, by omega⟩

namespace InUnit

theorem add (ha : InUnit a u) (hb : InUnit b v) : IsValue (a + b) (rounded (u + v)) :=
  ha.isValue.add hb.isValue (inRange_of_abs_le_two
    (abs_le.2 ⟨by linarith [ha.nonneg, hb.nonneg], by linarith [ha.le_one, hb.le_one]⟩))

private theorem two_mul_le_add (ha : InUnit a u) (hb : InUnit b v) : 2 * u * v ≤ u + v := by
  linarith [mul_nonneg ha.nonneg (sub_nonneg.2 hb.le_one),
    mul_nonneg hb.nonneg (sub_nonneg.2 ha.le_one)]

/-- The two sides of `u + v - 2 * u * v` keep their order, because each is
rounded once. -/
theorem rounded_two_mul_le (ha : InUnit a u) (hb : InUnit b v) :
    rounded (2 * u * v) ≤ rounded (u + v) :=
  rounded_mono (ha.two_mul_le_add hb)

private theorem hamacherNumerator (ha : InUnit a u) (hb : InUnit b v) :
    IsValue (a + b - Scalar.two * a * b) (rounded (rounded (u + v) - rounded (2 * u * v))) ∧
      0 ≤ rounded (rounded (u + v) - rounded (2 * u * v)) ∧
      rounded (rounded (u + v) - rounded (2 * u * v)) ≤ 2 := by
  have hu := ha.nonneg
  have hu' := ha.le_one
  have hv := hb.nonneg
  have hv' := hb.le_one
  have huv := mul_nonneg hu hv
  have hdouble : IsValue (Scalar.two * a) (2 * u) := by
    have h := isValue_two.mul ha.isValue
      (inRange_of_abs_le_two (abs_le.2 ⟨by linarith, by linarith⟩))
    rwa [rounded_of_isDouble ha.isValue.isDouble.two_mul] at h
  have hcross := ha.two_mul_le_add hb
  have hproduct := hdouble.mul hb.isValue
    (inRange_of_abs_le_two (abs_le.2 ⟨by linarith, by linarith⟩))
  have hle := ha.rounded_two_mul_le hb
  have hnonneg : 0 ≤ rounded (2 * u * v) := rounded_nonneg (by linarith)
  have htwo : rounded (u + v) ≤ 2 := rounded_le isDouble_two (by linarith)
  exact ⟨(ha.add hb).sub hproduct
      (inRange_of_abs_le_two (abs_le.2 ⟨by linarith, by linarith⟩)),
    rounded_nonneg (by linarith), rounded_le isDouble_two (by linarith)⟩

theorem hamacherSum (ha : InUnit a u) (hb : InUnit b v) :
    InUnit (Scalar.smaller (guardedQuotient (a + b - Scalar.two * a * b) (1 - a * b) 1) 1)
      (if rounded (1 - rounded (u * v)) ≤ 0 then 1
        else min (rounded (rounded (rounded (u + v) - rounded (2 * u * v)) /
          rounded (1 - rounded (u * v)))) 1) := by
  obtain ⟨hn, hn0, hn2⟩ := ha.hamacherNumerator hb
  have hp := ha.mul hb
  have hd := hp.complement
  unfold guardedQuotient
  by_cases hzero : rounded (1 - rounded (u * v)) ≤ 0
  · have hvalue := isValue_one.smaller isValue_one
    rw [min_self] at hvalue
    rw [if_pos ((hd.isValue.le_iff isValue_zero).2 hzero), if_pos hzero]
    exact ⟨hvalue, zero_le_one, le_rfl⟩
  · rw [if_neg (fun hle => hzero ((hd.isValue.le_iff isValue_zero).1 hle)), if_neg hzero]
    -- a denominator that is not 0 is so large that the quotient can be stored
    have hlt : rounded (u * v) < 1 := by
      by_contra hge
      exact hzero (rounded_le isValue_zero.isDouble (by linarith))
    have hgap := hp.isValue.isDouble.add_le_one hlt
    have hlarge : 2 ^ (-53 : ℤ) ≤ rounded (1 - rounded (u * v)) :=
      le_rounded (isDouble_two_zpow (by norm_num)) (by linarith)
    generalize rounded (1 - rounded (u * v)) = d at hd hzero hlarge ⊢
    generalize rounded (rounded (u + v) - rounded (2 * u * v)) = n at hn hn0 hn2 ⊢
    have hd0 : 0 < d := not_le.1 hzero
    have hq0 : 0 ≤ n / d := div_nonneg hn0 hd0.le
    have hq : |n / d| ≤ 2 ^ (54 : ℤ) := by
      rw [abs_of_nonneg hq0, div_le_iff₀ hd0]
      calc n ≤ 2 ^ (54 : ℤ) * 2 ^ (-53 : ℤ) := hn2.trans (by norm_num)
        _ ≤ 2 ^ (54 : ℤ) * d := mul_le_mul_of_nonneg_left hlarge (two_zpow_pos _).le
    have hrange : InRange (n / d) :=
      inRange_of_abs_le (isDouble_two_zpow (by norm_num))
        (zpow_lt_zpow_right₀ one_lt_two (by norm_num)) hq
    exact ⟨(hn.div hd.isValue hd0.ne' hrange).smaller isValue_one,
      le_min (rounded_nonneg hq0) zero_le_one, min_le_right _ _⟩

/-- The rounded `(u + v) / (1 + u * v)` is above 1 by two last places at most. -/
theorem einsteinSum (ha : InUnit a u) (hb : InUnit b v) :
    IsValue ((a + b) / (1 + a * b))
        (rounded (rounded (u + v) / rounded (1 + rounded (u * v)))) ∧
      0 ≤ rounded (rounded (u + v) / rounded (1 + rounded (u * v))) ∧
      rounded (rounded (u + v) / rounded (1 + rounded (u * v))) ≤ 1 + 2 ^ (-51 : ℤ) := by
  have hu := ha.nonneg
  have hu' := ha.le_one
  have hv := hb.nonneg
  have hv' := hb.le_one
  have huv := mul_nonneg hu hv
  have huv' := mul_le_one₀ hu' hv hv'
  have hp := ha.mul hb
  have hs := ha.add hb
  have hp0 := hp.nonneg
  have hp1 := hp.le_one
  have hd := isValue_one.add hp.isValue
    (inRange_of_abs_le_two (abs_le.2 ⟨by linarith, by linarith⟩))
  have hserr := abs_rounded_sub_le_of_le_two (x := u + v) (by linarith) (by linarith)
  have hperr := abs_rounded_sub_le_of_le_one huv huv'
  have hderr := abs_rounded_sub_le_of_le_two (x := 1 + rounded (u * v)) (by linarith) (by linarith)
  have hs0 : 0 ≤ rounded (u + v) := rounded_nonneg (by linarith)
  have hd1 : 1 ≤ rounded (1 + rounded (u * v)) := le_rounded isDouble_one (by linarith)
  generalize rounded (1 + rounded (u * v)) = d at hd hderr hd1 ⊢
  generalize rounded (u * v) = p at hperr hderr hp0 hp1
  generalize rounded (u + v) = s at hs hserr hs0 ⊢
  -- unrounded the numerator is no greater, so it exceeds the denominator by rounding only
  have hsum : u + v ≤ 1 + u * v := by nlinarith
  have hexcess : s ≤ d + 2 ^ (-51 : ℤ) := by
    have hupper := (abs_le.1 hserr).2
    have hlower := (abs_le.1 hperr).1
    have hlower' := (abs_le.1 hderr).1
    norm_num at hupper hlower hlower' ⊢
    linarith
  have hd0 : 0 < d := by linarith
  have hq0 : 0 ≤ s / d := div_nonneg hs0 hd0.le
  have hq : s / d ≤ 1 + 2 ^ (-51 : ℤ) := by
    rw [div_le_iff₀ hd0]
    have hscale := mul_le_mul_of_nonneg_left hd1 (two_zpow_pos (-51)).le
    linarith
  have habs : |s / d| ≤ 2 := abs_le.2 ⟨by linarith, hq.trans (by norm_num)⟩
  exact ⟨hs.div hd hd0.ne' (inRange_of_abs_le_two habs), rounded_nonneg hq0,
    rounded_le isDouble_two_places_above_one hq⟩

end InUnit

end FuzzyInference.Binary

namespace FuzzyInference

open Binary

/-! ## Degrees -/

namespace Degree

theorem exists_inUnit (a : Degree Float) : ∃ u, InUnit a.value u := by
  obtain ⟨u, hu, hlo, hhi⟩ := exists_isValue_of_between isValue_zero isValue_one a.nonneg a.le_one
  exact ⟨u, hu, hlo, hhi⟩

section Values

variable {a b : Degree Float} {u v : ℚ}

theorem isValue_max (ha : IsValue a.value u) (hb : IsValue b.value v) :
    IsValue (max a b).value (max u v) := by
  change IsValue (if a < b then b else a).value _
  by_cases hlt : a < b
  · rw [if_pos hlt, max_eq_right ((ha.lt_iff hb).1 hlt).le]
    exact hb
  · rw [if_neg hlt, max_eq_left (not_lt.1 fun h => hlt ((ha.lt_iff hb).2 h))]
    exact ha

theorem isZero_min_iff (ha : InUnit a.value u) (hb : InUnit b.value v) :
    (min a b).isZero = true ↔ u = 0 ∨ v = 0 := by
  change ((if b < a then b else a).value == 0) = true ↔ _
  by_cases hlt : b < a
  · have hvu := (hb.isValue.lt_iff ha.isValue).1 hlt
    rw [if_pos hlt, hb.isValue.beq_iff isValue_zero, iff_or_self]
    rintro rfl
    exact absurd hb.nonneg (not_le.2 hvu)
  · have huv : u ≤ v := not_lt.1 fun h => hlt ((hb.isValue.lt_iff ha.isValue).2 h)
    rw [if_neg hlt, ha.isValue.beq_iff isValue_zero, iff_self_or]
    rintro rfl
    exact le_antisymm huv ha.nonneg

end Values

/-- A number that exceeds the unit interval by two last places at most is the
degree next to it. -/
theorem exists_ofRounded {f : Float} {x : ℚ} (hf : IsValue f x) (hlo : 0 ≤ x)
    (hhi : x ≤ 1 + 2 ^ (-51 : ℤ)) : ∃ d, ofRounded f = .ok d ∧ IsValue d.value (min x 1) := by
  have hfinite : Scalar.isFinite f = true := hf.isFinite
  have hnonneg : ¬ f < 0 := fun hlt => absurd ((hf.lt_iff isValue_zero).1 hlt) (not_lt.2 hlo)
  unfold ofRounded
  rw [if_pos hfinite, if_neg (fun h => hnonneg h.2)]
  by_cases habove : x ≤ 1
  · have hle : f ≤ 1 := (hf.le_iff isValue_one).2 habove
    have hnot : ¬ 1 < f := fun hlt => absurd ((isValue_one.lt_iff hf).1 hlt) (not_lt.2 habove)
    rw [if_neg (fun h => hnot h.1), ofScalar, if_pos hfinite,
      dif_pos ⟨(isValue_zero.le_iff hf).2 hlo, hle⟩, min_eq_left habove]
    exact ⟨_, rfl, hf⟩
  · have hlt : 1 < f := (isValue_one.lt_iff hf).2 (not_le.1 habove)
    rw [if_pos ⟨hlt, le_one_add_tolerance hf hhi⟩, min_eq_right (not_le.1 habove).le]
    exact ⟨_, rfl, isValue_one⟩

theorem exists_ofRounded_of_inUnit {f : Float} {x : ℚ} (hf : InUnit f x) :
    ∃ d, ofRounded f = .ok d ∧ IsValue d.value x := by
  have hroom := two_zpow_pos (-51)
  have h := exists_ofRounded hf.isValue hf.nonneg (hf.le_one.trans (by linarith))
  rwa [min_eq_left hf.le_one] at h

end Degree

/-! ## Norms -/

theorem TNorm.exists_evaluate (norm : TNorm) (a b : Degree Float) :
    ∃ d, norm.evaluate a b = .ok d := by
  obtain ⟨u, ha⟩ := a.exists_inUnit
  obtain ⟨v, hb⟩ := b.exists_inUnit
  have hs := ha.probabilisticSum hb
  have hle := ha.max_le_roundedSum hb
  generalize roundedSum u v = s at hs hle
  have hofRounded {f : Float} {x : ℚ} (hf : InUnit f x) : ∃ d, Degree.ofRounded f = .ok d :=
    (Degree.exists_ofRounded_of_inUnit hf).imp fun _ h => h.1
  cases norm with
  | minimum => exact ⟨_, rfl⟩
  | product => exact ⟨_, rfl⟩
  | drastic => exact ⟨_, rfl⟩
  | nilpotent => exact ⟨_, rfl⟩
  | lukasiewicz =>
      have hc := hb.complement
      have habs : |u - rounded (1 - v)| ≤ 1 :=
        abs_le.2 ⟨by linarith [ha.nonneg, hc.le_one], by linarith [ha.le_one, hc.nonneg]⟩
      have hdiff := ha.isValue.sub hc.isValue (inRange_of_abs_le_two (habs.trans one_le_two))
      have hle : rounded (u - rounded (1 - v)) ≤ 1 :=
        rounded_le isValue_one.isDouble (abs_le.1 habs).2
      exact hofRounded ⟨hdiff.larger isValue_zero, le_max_right _ _, max_le hle zero_le_one⟩
  | einstein =>
      have habs : |2 - s| ≤ 2 := abs_le.2 ⟨by linarith [hs.le_one], by linarith [hs.nonneg]⟩
      have hd := isValue_two.sub hs.isValue (inRange_of_abs_le_two habs)
      have hd1 : 1 ≤ rounded (2 - s) := le_rounded isValue_one.isDouble (by linarith [hs.le_one])
      have hp := ha.mul hb
      obtain ⟨q, hq⟩ := exists_guardedQuotient hp.isValue hd InUnit.zero hp.nonneg
        (hp.le_one.trans hd1)
      exact hofRounded hq
  | hamacher =>
      have hp := ha.mul hb
      obtain ⟨q, hq⟩ := exists_guardedQuotient hp.isValue hs.isValue InUnit.zero hp.nonneg
        ((InUnit.rounded_mul_le ha.le_one hb).trans ((le_max_right u v).trans hle))
      exact hofRounded hq

/-- The value of a disjunction when each operation of its formula is rounded. -/
def TConorm.roundedFormula (conorm : TConorm) (u v : ℚ) : ℚ :=
  match conorm with
  | maximum => max u v
  | probabilistic => roundedSum u v
  | bounded => min (rounded (u + v)) 1
  | drastic => if u = 0 ∨ v = 0 then max u v else 1
  | einstein => min (rounded (rounded (u + v) / rounded (1 + rounded (u * v)))) 1
  | hamacher =>
      if rounded (1 - rounded (u * v)) ≤ 0 then 1
      else min (rounded (rounded (rounded (u + v) - rounded (2 * u * v)) /
        rounded (1 - rounded (u * v)))) 1
  | nilpotent => if rounded (u + v) < 1 then max u v else 1

theorem TConorm.evaluate_rounded (conorm : TConorm) {a b : Degree Float} {u v : ℚ}
    (ha : InUnit a.value u) (hb : InUnit b.value v) :
    ∃ d, conorm.evaluate a b = .ok d ∧ IsValue d.value (conorm.roundedFormula u v) := by
  have hsum := ha.add hb
  have hmax := Degree.isValue_max ha.isValue hb.isValue
  cases conorm with
  | maximum => exact ⟨_, rfl, hmax⟩
  | probabilistic => exact Degree.exists_ofRounded_of_inUnit (ha.probabilisticSum hb)
  | bounded =>
      have hnonneg : 0 ≤ rounded (u + v) := rounded_nonneg (add_nonneg ha.nonneg hb.nonneg)
      exact Degree.exists_ofRounded_of_inUnit ⟨hsum.smaller isValue_one,
        le_min hnonneg zero_le_one, min_le_right _ _⟩
  | drastic =>
      refine ⟨_, rfl, ?_⟩
      rw [roundedFormula]
      by_cases hzero : u = 0 ∨ v = 0
      · rw [if_pos hzero, if_pos ((Degree.isZero_min_iff ha hb).2 hzero)]
        exact hmax
      · rw [if_neg hzero, if_neg (mt (Degree.isZero_min_iff ha hb).1 hzero)]
        exact isValue_one
  | einstein =>
      obtain ⟨hq, hlo, hhi⟩ := ha.einsteinSum hb
      exact Degree.exists_ofRounded hq hlo hhi
  | hamacher => exact Degree.exists_ofRounded_of_inUnit (ha.hamacherSum hb)
  | nilpotent =>
      refine ⟨_, rfl, ?_⟩
      rw [roundedFormula]
      by_cases hlt : rounded (u + v) < 1
      · rw [if_pos hlt, if_pos ((hsum.lt_iff isValue_one).2 hlt)]
        exact hmax
      · rw [if_neg hlt, if_neg (mt (hsum.lt_iff isValue_one).1 hlt)]
        exact isValue_one

theorem TConorm.exists_evaluate (conorm : TConorm) (a b : Degree Float) :
    ∃ d, conorm.evaluate a b = .ok d := by
  obtain ⟨u, ha⟩ := a.exists_inUnit
  obtain ⟨v, hb⟩ := b.exists_inUnit
  exact (conorm.evaluate_rounded ha hb).imp fun _ h => h.1

instance : TotalNorms Float := ⟨TNorm.exists_evaluate, TConorm.exists_evaluate⟩

end FuzzyInference
