import FuzzyInference.Proofs.Binary.Value

/-!
# Floating-point arithmetic is rounded exact arithmetic

The sum, difference, product and quotient of two finite floating-point numbers
stand for the rounded result of the exact operation, as long as that is not too
large to be stored.
-/

namespace FuzzyInference.Binary

open Float.Model Float.Model.UnpackedFloat

/-! ## Residual bits -/

/-- The residual bits say where `q` lies between the mantissa and the integer
after it. -/
def Approximates : ExtendedMantissa → ℚ → Prop
  | ⟨m, false, false⟩, q => q = m
  | ⟨m, false, true⟩, q => m < q ∧ q < m + 1 / 2
  | ⟨m, true, false⟩, q => q = m + 1 / 2
  | ⟨m, true, true⟩, q => m + 1 / 2 < q ∧ q < m + 1

namespace Approximates

theorem bounds {em : ExtendedMantissa} {q : ℚ} (h : Approximates em q) :
    em.mantissa ≤ q ∧ q < em.mantissa + 1 := by
  rcases em with ⟨m, roundBit, stickyBit⟩
  cases roundBit <;> cases stickyBit <;> simp only [Approximates] at h ⊢ <;>
    constructor <;> linarith

theorem isNearest {em : ExtendedMantissa} {q : ℚ} (h : Approximates em q) :
    IsNearest em.roundedMantissa q := by
  rcases em with ⟨m, roundBit, stickyBit⟩
  cases roundBit <;> cases stickyBit <;> simp only [Approximates] at h <;>
    simp only [ExtendedMantissa.roundedMantissa, ExtendedMantissa.accuracy,
      Accuracy.roundToNearestEven]
  · rw [h]
    exact isNearest_intCast m
  · have hdist : |q - ((m : ℤ) : ℚ)| < 1 / 2 := by
      push_cast
      exact abs_lt.2 ⟨by linarith, by linarith⟩
    exact ⟨hdist.le, fun hmid => absurd hmid hdist.ne⟩
  · have hparity := Nat.mod_two_eq_zero_or_one m
    refine ⟨?_, fun _ => ?_⟩
    · rw [h]
      rcases hparity with heven | hodd
      · rw [heven]
        push_cast
        exact abs_le.2 ⟨by linarith, by linarith⟩
      · rw [hodd]
        push_cast
        exact abs_le.2 ⟨by linarith, by linarith⟩
    · rw [Int.even_iff]
      omega
  · have hdist : |q - ((m + 1 : ℕ) : ℤ)| < 1 / 2 := by
      push_cast
      exact abs_lt.2 ⟨by linarith, by linarith⟩
    exact ⟨hdist.le, fun hmid => absurd hmid hdist.ne⟩

theorem half {em : ExtendedMantissa} {q : ℚ} (h : Approximates em q) :
    Approximates em.shiftRightOne (q / 2) := by
  rcases em with ⟨m, roundBit, stickyBit⟩
  have hsplit : (m : ℚ) = 2 * (m / 2 : ℕ) + (m % 2 : ℕ) := by
    exact_mod_cast (Nat.div_add_mod m 2).symm
  unfold ExtendedMantissa.shiftRightOne
  rcases Nat.mod_two_eq_zero_or_one m with hbit | hbit
  · have hround : (m % 2 != 0) = false := by rw [hbit]; rfl
    rw [hbit, Nat.cast_zero, add_zero] at hsplit
    cases roundBit <;> cases stickyBit <;>
      simp only [Approximates, hround, Bool.or_false, Bool.or_true] at h ⊢
    · linarith
    all_goals exact ⟨by linarith, by linarith⟩
  · have hround : (m % 2 != 0) = true := by rw [hbit]; rfl
    rw [hbit, Nat.cast_one] at hsplit
    cases roundBit <;> cases stickyBit <;>
      simp only [Approximates, hround, Bool.or_false, Bool.or_true] at h ⊢
    · linarith
    all_goals exact ⟨by linarith, by linarith⟩

theorem shift {em : ExtendedMantissa} {q : ℚ} (h : Approximates em q) (k : ℕ) :
    Approximates (em >>> k) (q / 2 ^ k) := by
  change Approximates (k.repeat ExtendedMantissa.shiftRightOne em) (q / 2 ^ k)
  induction k with
  | zero => simpa [Nat.repeat] using h
  | succ k ih =>
      rw [Nat.repeat, pow_succ, ← div_div]
      exact ih.half

end Approximates

theorem approximates_exact (m : ℕ) :
    Approximates (ExtendedMantissa.ofMantissaAndAccuracy m .exact) m := rfl

theorem approximates_fraction {m num den : ℕ} (h : num < den) :
    Approximates (ExtendedMantissa.ofMantissaAndAccuracy m (accuracyOfFraction num den))
      (m + num / den) := by
  have hden : (0 : ℚ) < den := by exact_mod_cast Nat.zero_lt_of_lt h
  have hlt : (num : ℚ) / den < 1 := (div_lt_one hden).2 (by exact_mod_cast h)
  unfold accuracyOfFraction
  split_ifs with hzero
  · simp [hzero, ExtendedMantissa.ofMantissaAndAccuracy, Approximates]
  · have hpos : (0 : ℚ) < num / den := by
      have hnum : (0 : ℚ) < num := by exact_mod_cast Nat.pos_of_ne_zero hzero
      positivity
    rcases lt_trichotomy (2 * num) den with hcmp | hcmp | hcmp
    · have hhalf : (num : ℚ) / den < 1 / 2 := by
        rw [div_lt_div_iff₀ hden two_pos]
        exact_mod_cast (by omega : num * 2 < 1 * den)
      rw [compare_lt_iff_lt.2 hcmp]
      exact ⟨by linarith, by linarith⟩
    · have hhalf : (num : ℚ) / den = 1 / 2 := by
        rw [div_eq_div_iff hden.ne' two_ne_zero]
        exact_mod_cast (by omega : num * 2 = 1 * den)
      rw [compare_eq_iff_eq.2 hcmp]
      exact congrArg _ hhalf
    · have hhalf : 1 / 2 < (num : ℚ) / den := by
        rw [div_lt_div_iff₀ two_pos hden]
        exact_mod_cast (by omega : 1 * den < num * 2)
      rw [compare_gt_iff_gt.2 hcmp]
      exact ⟨by linarith, by linarith⟩

/-! ## Rounding a mantissa -/

/-- The exponent to which a mantissa is shifted before it is rounded. -/
private theorem targetExponent_eq (m : ℕ) (e : ℤ) :
    Format.binary64.targetExponent (totalExponent m e) = max (m.log2 + e - 52) (-1074) := by
  have hmin : Format.binary64.minExponent = -1074 := by decide
  have hbits : (Format.binary64.mantissaBits : ℤ) = 53 := by decide
  simp only [Format.targetExponent, totalExponent, hmin, hbits]
  omega

private theorem lastPlace_eq_target {m : ℕ} {e : ℤ} {q : ℚ} (hlo : m ≤ q) (hhi : q < m + 1)
    (hpos : 0 < q) (he : e ≤ max (m.log2 + e - 52) (-1074)) :
    lastPlace (q * 2 ^ e) = max (m.log2 + e - 52) (-1074) := by
  have hvalue : 0 < q * 2 ^ e := mul_pos hpos (two_zpow_pos e)
  rcases Nat.eq_zero_or_pos m with rfl | hm
  · -- less than one unit of the least exponent
    have hsmall : q * 2 ^ e < 2 ^ e := by
      have hq : q < 1 := by simpa using hhi
      simpa using mul_lt_mul_of_pos_right hq (two_zpow_pos e)
    have hlog := (Int.lt_zpow_iff_log_lt one_lt_two hvalue).1 (by exact_mod_cast hsmall)
    rw [lastPlace, abs_of_pos hvalue]
    simp only [Nat.log2_zero] at he ⊢
    omega
  · have hfloor : (2 : ℚ) ^ (m.log2 : ℤ) ≤ m := by exact_mod_cast Nat.log2_self_le hm.ne'
    have hceil : (m : ℚ) + 1 ≤ 2 ^ (m.log2 + 1 : ℤ) := by exact_mod_cast Nat.lt_log2_self
    have hexp : (m.log2 : ℤ) + e + 1 = m.log2 + 1 + e := by ring
    apply lastPlace_eq
    · rw [abs_of_pos hvalue, zpow_add₀ two_ne_zero]
      exact mul_le_mul_of_nonneg_right (hfloor.trans hlo) (two_zpow_pos e).le
    · rw [abs_of_pos hvalue, hexp, zpow_add₀ two_ne_zero]
      exact mul_lt_mul_of_pos_right (hhi.trans_le hceil) (two_zpow_pos e)

private theorem shift_of_lt {m : ℕ} {e : ℤ} (hm : m < 2 ^ 53) (he : -1074 ≤ e) :
    shiftToTargetExponent Format.binary64 m e .exact = (⟨m, false, false⟩, e) := by
  have hlog : m.log2 ≤ 52 := by
    rcases Nat.eq_zero_or_pos m with rfl | hpos
    · simp
    · have := (Nat.log2_lt hpos.ne').2 hm
      omega
  have hshift : (max ((m.log2 : ℤ) + e - 52) (-1074) - e).toNat = 0 := by omega
  rw [shiftToTargetExponent, targetExponent_eq, shiftToExponent, hshift]
  simp [HShiftRight.hShiftRight, Nat.repeat, ExtendedMantissa.ofMantissaAndAccuracy]

private theorem shift_of_carry {e : ℤ} (he : -1074 ≤ e) :
    shiftToTargetExponent Format.binary64 (2 ^ 53) e .exact =
      (⟨2 ^ 52, false, false⟩, e + 1) := by
  have hshift : (max (((2 ^ 53 : ℕ).log2 : ℤ) + e - 52) (-1074) - e).toNat = 1 := by
    rw [Nat.log2_two_pow]
    omega
  rw [shiftToTargetExponent, targetExponent_eq, shiftToExponent, hshift]
  rfl

private theorem cast_apply (s : Sign) (n : ℕ) :
    ((s.apply n : ℤ) : ℚ) = (s.apply 1 : ℤ) * n := by
  cases s <;> simp [Sign.apply]

private theorem rounded_apply (s : Sign) (x : ℚ) :
    rounded ((s.apply 1 : ℤ) * x) = (s.apply 1 : ℤ) * rounded x := by
  cases s <;> simp [Sign.apply]

private theorem apply_mul (s t : Sign) :
    (((s * t).apply 1 : ℤ) : ℚ) = (s.apply 1 : ℤ) * (t.apply 1 : ℤ) := by
  cases s <;> cases t <;> simp [Sign.apply]

private theorem apply_div (s t : Sign) :
    (((s / t).apply 1 : ℤ) : ℚ) = (s.apply 1 : ℤ) / (t.apply 1 : ℤ) := by
  have hmul : s / t = s * t := by cases s <;> cases t <;> rfl
  rw [hmul, apply_mul]
  cases t <;> simp [Sign.apply, div_neg]

private theorem encodes_rounded {s : Sign} {m : ℕ} {e : ℤ} {acc : Accuracy}
    {em : ExtendedMantissa} {r : ℕ} {t : ℤ}
    (hfirst : shiftToTargetExponent Format.binary64 m e acc = (em, t))
    (hr : em.roundedMantissa = r) (hle : r ≤ 2 ^ 53) (ht : -1074 ≤ t)
    (hnormal : 2 ^ 52 ≤ r ∨ t = -1074) :
    Encodes (roundWithAccuracy Format.binary64 s m e acc) ((s.apply 1 : ℤ) * (r * 2 ^ t)) := by
  rcases hle.lt_or_eq with hlt | hcarry
  · have hsecond := shift_of_lt hlt ht
    simp only [roundWithAccuracy, hfirst, hr, hsecond]
    split_ifs with hzero
    · simp [Encodes, hzero]
    · exact ⟨⟨hlt, ht, hnormal⟩, by rw [cast_apply, mul_assoc]⟩
  · have hsecond := shift_of_carry ht
    rw [← hcarry] at hsecond
    simp only [roundWithAccuracy, hfirst, hr, hsecond]
    rw [dif_neg (by norm_num)]
    refine ⟨⟨by norm_num, by omega, .inl le_rfl⟩, ?_⟩
    rw [cast_apply, mul_assoc, zpow_add_one₀ two_ne_zero, hcarry]
    push_cast
    ring

/-! What is rounded to a mantissa at the exponent `t`. -/

private theorem scaled_eq_shifted {e t : ℤ} (q : ℚ) (h : e ≤ t) :
    q * 2 ^ e / 2 ^ t = q / 2 ^ (t - e).toNat := by
  rw [← zpow_natCast, Int.toNat_of_nonneg (by omega), zpow_sub₀ two_ne_zero]
  have := two_zpow_pos t
  have := two_zpow_pos e
  field_simp

private theorem scaled_le {m : ℕ} {e t : ℤ} {q : ℚ} (hhi : q < m + 1)
    (h : (m.log2 : ℤ) + e ≤ 52 + t) : q * 2 ^ e / 2 ^ t ≤ ((2 ^ 53 : ℤ) : ℚ) := by
  have hceil : (m : ℚ) + 1 ≤ 2 ^ (m.log2 + 1 : ℤ) := by
    exact_mod_cast Nat.lt_log2_self
  rw [div_le_iff₀ (two_zpow_pos t)]
  calc q * 2 ^ e ≤ 2 ^ (m.log2 + 1 : ℤ) * 2 ^ e :=
        mul_le_mul_of_nonneg_right (hhi.le.trans hceil) (two_zpow_pos e).le
    _ = 2 ^ ((m.log2 + 1 : ℤ) + e) := (zpow_add₀ two_ne_zero _ _).symm
    _ ≤ 2 ^ (53 + t) := zpow_le_zpow_right₀ one_le_two (by omega)
    _ = ((2 ^ 53 : ℤ) : ℚ) * 2 ^ t := by
        rw [zpow_add₀ two_ne_zero]
        norm_num

private theorem le_scaled {m : ℕ} {e t : ℤ} {q : ℚ} (hm : m ≠ 0) (hlo : m ≤ q)
    (h : 52 + t = (m.log2 : ℤ) + e) : ((2 ^ 52 : ℤ) : ℚ) ≤ q * 2 ^ e / 2 ^ t := by
  have hfloor : (2 : ℚ) ^ (m.log2 : ℤ) ≤ m := by exact_mod_cast Nat.log2_self_le hm
  rw [le_div_iff₀ (two_zpow_pos t)]
  calc ((2 ^ 52 : ℤ) : ℚ) * 2 ^ t = 2 ^ (52 + t) := by
        rw [zpow_add₀ two_ne_zero]
        norm_num
    _ = 2 ^ ((m.log2 : ℤ) + e) := by rw [h]
    _ = 2 ^ (m.log2 : ℤ) * 2 ^ e := zpow_add₀ two_ne_zero _ _
    _ ≤ q * 2 ^ e := mul_le_mul_of_nonneg_right (hfloor.trans hlo) (two_zpow_pos e).le

/-- A mantissa with residual bits is rounded to the number of double precision
that is nearest to what it approximates. -/
theorem encodes_roundWithAccuracy {s : Sign} {m : ℕ} {e : ℤ} {acc : Accuracy} {q : ℚ}
    (hq : Approximates (ExtendedMantissa.ofMantissaAndAccuracy m acc) q)
    (he : e ≤ max (m.log2 + e - 52) (-1074)) :
    Encodes (roundWithAccuracy Format.binary64 s m e acc)
      ((s.apply 1 : ℤ) * rounded (q * 2 ^ e)) := by
  obtain ⟨hlo, hhi⟩ := hq.bounds
  have hmant : (ExtendedMantissa.ofMantissaAndAccuracy m acc).mantissa = m := by
    rcases acc with _ | order
    · rfl
    · cases order <;> rfl
  rw [hmant] at hlo hhi
  generalize ht : max ((m.log2 : ℤ) + e - 52) (-1074) = t at he
  have happrox := hq.shift (t - e).toNat
  rw [← scaled_eq_shifted q he] at happrox
  have hnear := happrox.isNearest
  have hfirst : shiftToTargetExponent Format.binary64 m e acc =
      (ExtendedMantissa.ofMantissaAndAccuracy m acc >>> (t - e).toNat, t) := by
    rw [shiftToTargetExponent, targetExponent_eq, shiftToExponent, ht]
    congr 1
    omega
  -- the first shift goes to the last place of the number, where rounding the mantissa is
  -- rounding the number
  have hvalue : (((ExtendedMantissa.ofMantissaAndAccuracy m acc >>>
      (t - e).toNat).roundedMantissa : ℕ) : ℚ) * 2 ^ t = rounded (q * 2 ^ e) := by
    rcases (Nat.cast_nonneg m |>.trans hlo).eq_or_lt with hzero | hpos
    · rw [← hzero, zero_mul, zero_div] at hnear
      have hnone := hnear.unique (isNearest_intCast 0)
      rw [← hzero, zero_mul, rounded_zero]
      simp only [Int.natCast_eq_zero] at hnone
      rw [hnone, Nat.cast_zero, zero_mul]
    · rw [rounded, lastPlace_eq_target hlo hhi hpos (ht ▸ he), ht, nearestInt_eq hnear]
      push_cast
      rfl
  rw [← hvalue]
  apply encodes_rounded hfirst rfl
  · exact_mod_cast hnear.le (isNearest_intCast _) (scaled_le hhi (by omega))
  · omega
  · by_cases hmin : t = -1074
    · exact .inr hmin
    · have hm : m ≠ 0 := by
        rintro rfl
        simp only [Nat.log2_zero] at ht
        omega
      have hnormal := le_scaled (e := e) (t := t) hm hlo (by omega)
      exact .inl (by exact_mod_cast (isNearest_intCast _).le hnear hnormal)

/-! ## Integers at an exponent -/

private theorem log2_shiftLeft {m : ℕ} (hm : 0 < m) (k : ℕ) :
    (m <<< k).log2 = m.log2 + k := by
  have hpos : 0 < 2 ^ k := Nat.two_pow_pos k
  rw [Nat.shiftLeft_eq]
  apply (Nat.log2_eq_iff (by positivity)).2
  constructor
  · rw [pow_add]
    exact Nat.mul_le_mul_right _ (Nat.log2_self_le hm.ne')
  · rw [add_right_comm, pow_add]
    exact Nat.mul_lt_mul_of_pos_right Nat.lt_log2_self hpos

theorem encodes_round {s : Sign} {m : ℕ} (hm : 0 < m) (e : ℤ) :
    Encodes (UnpackedFloat.round Format.binary64 s m e)
      ((s.apply 1 : ℤ) * rounded (m * 2 ^ e)) := by
  simp only [UnpackedFloat.round, decreaseExponent, targetExponent_eq]
  generalize hk : (e - max ((m.log2 : ℤ) + e - 52) (-1074)).toNat = k
  have hlog : (m <<< k).log2 = m.log2 + k := log2_shiftLeft hm k
  have hvalue : (m : ℚ) * 2 ^ e = (m <<< k : ℕ) * 2 ^ (e - k) := by
    rw [Nat.shiftLeft_eq, zpow_sub₀ two_ne_zero, zpow_natCast]
    push_cast
    field_simp
  rw [hvalue]
  apply encodes_roundWithAccuracy (approximates_exact _)
  rw [hlog]
  push_cast
  omega

theorem encodes_normalize (m : ℤ) (e : ℤ) (zeroSign : Sign) :
    Encodes (normalize Format.binary64 m e zeroSign) (rounded (m * 2 ^ e)) := by
  unfold UnpackedFloat.normalize
  rcases lt_trichotomy m 0 with hm | rfl | hm
  · rw [compare_lt_iff_lt.2 hm]
    have hround := encodes_round (s := .negative) (m := (-m).toNat) (by omega) e
    have hnat : (((-m).toNat : ℕ) : ℚ) = -m := by exact_mod_cast Int.toNat_of_nonneg (by omega)
    rw [hnat, neg_mul, rounded_neg] at hround
    simpa [Sign.apply] using hround
  · rw [compare_eq_iff_eq.2 rfl]
    simp [Encodes]
  · rw [compare_gt_iff_gt.2 hm]
    have hround := encodes_round (s := .positive) (m := m.toNat) (by omega) e
    have hnat : ((m.toNat : ℕ) : ℚ) = m := by exact_mod_cast Int.toNat_of_nonneg hm.le
    rw [hnat] at hround
    simpa [Sign.apply] using hround

/-! ## Operations -/

private theorem signed_decreaseExponent {s : Sign} {m : ℕ} {e t : ℤ} (h : t ≤ e) :
    ((s.apply ((decreaseExponent m e t).1 : ℕ) : ℤ) : ℚ) * 2 ^ t = s.apply m * 2 ^ e := by
  have hvalue : ((m <<< (e - t).toNat : ℕ) : ℚ) * 2 ^ t = m * 2 ^ e := by
    have hsplit : e = ((e - t).toNat : ℤ) + t := by omega
    conv_rhs => rw [hsplit, zpow_add₀ two_ne_zero, zpow_natCast]
    rw [Nat.shiftLeft_eq]
    push_cast
    ring
  cases s <;> simp only [decreaseExponent, Sign.apply, Int.cast_neg, Int.cast_natCast, neg_mul,
    hvalue]

theorem encodes_add {u v : UnpackedFloat} {x y : ℚ} (hu : Encodes u x) (hv : Encodes v y) :
    Encodes (UnpackedFloat.add Format.binary64 u v) (rounded (x + y)) := by
  cases u with
  | infinity s => exact hu.elim
  | notANumber => exact hu.elim
  | zero s =>
      obtain rfl : x = 0 := hu
      have hexact := rounded_of_isDouble hv.isDouble
      rw [zero_add, hexact]
      cases v with
      | infinity t => exact hv.elim
      | notANumber => exact hv.elim
      | zero t =>
          obtain rfl : y = 0 := hv
          simp only [UnpackedFloat.add]
          split_ifs <;> rfl
      | finite t n f hn => exact hv
  | finite s m e hm =>
      cases v with
      | infinity t => exact hv.elim
      | notANumber => exact hv.elim
      | zero t =>
          obtain rfl : y = 0 := hv
          rw [add_zero, rounded_of_isDouble hu.isDouble]
          exact hu
      | finite t n f hn =>
          have hsum := encodes_normalize
            (s.apply ((decreaseExponent m e (min e f)).1 : ℕ) +
              t.apply ((decreaseExponent n f (min e f)).1 : ℕ)) (min e f) .positive
          push_cast at hsum
          rw [add_mul, signed_decreaseExponent (min_le_left e f),
            signed_decreaseExponent (min_le_right e f), ← hu.2, ← hv.2] at hsum
          exact hsum

private theorem apply_neg (s : Sign) (k : ℤ) : (-s).apply k = -s.apply k := by
  cases s with
  | negative => exact (neg_neg k).symm
  | positive => rfl

theorem Encodes.neg {v : UnpackedFloat} {y : ℚ} (hv : Encodes v y) :
    Encodes (UnpackedFloat.neg v) (-y) := by
  cases v with
  | infinity t => exact hv.elim
  | notANumber => exact hv.elim
  | zero t =>
      obtain rfl : y = 0 := hv
      exact neg_zero
  | finite t n f hn =>
      obtain ⟨hc, rfl⟩ := hv
      exact ⟨hc, by rw [apply_neg, Int.cast_neg, neg_mul]⟩

theorem sub_eq_add_of_neg (u v : UnpackedFloat) :
    UnpackedFloat.sub Format.binary64 u v =
      UnpackedFloat.add Format.binary64 u (UnpackedFloat.neg v) := by
  cases u <;> cases v <;> try rfl
  simp only [UnpackedFloat.sub, UnpackedFloat.add, UnpackedFloat.neg, apply_neg,
    Int.sub_eq_add_neg]

theorem encodes_sub {u v : UnpackedFloat} {x y : ℚ} (hu : Encodes u x) (hv : Encodes v y) :
    Encodes (UnpackedFloat.sub Format.binary64 u v) (rounded (x - y)) := by
  rw [sub_eq_add_of_neg, sub_eq_add_neg]
  exact encodes_add hu hv.neg

/-- The product of stored mantissas fills a mantissa, or is as small as both. -/
private theorem mul_place {m n : ℕ} {e f : ℤ} (hm : 0 < m) (hn : 0 < n) (hu : Canonical m e)
    (hv : Canonical n f) : e + f ≤ max (((m * n).log2 : ℤ) + (e + f) - 52) (-1074) := by
  have hge := hu.ge
  have hge' := hv.ge
  by_cases hlarge : 2 ^ 52 ≤ m * n
  · have := (Nat.le_log2 (by positivity)).2 hlarge
    omega
  · have hm' : ¬ 2 ^ 52 ≤ m := fun h => hlarge (h.trans (Nat.le_mul_of_pos_right m hn))
    have hn' : ¬ 2 ^ 52 ≤ n := fun h => hlarge (h.trans (Nat.le_mul_of_pos_left n hm))
    have he := hu.normal.resolve_left hm'
    have hf := hv.normal.resolve_left hn'
    omega

theorem encodes_mul {u v : UnpackedFloat} {x y : ℚ} (hu : Encodes u x) (hv : Encodes v y) :
    Encodes (UnpackedFloat.mul Format.binary64 u v) (rounded (x * y)) := by
  cases u with
  | infinity s => exact hu.elim
  | notANumber => exact hu.elim
  | zero s =>
      obtain rfl : x = 0 := hu
      rw [zero_mul, rounded_zero]
      cases v with
      | infinity t => exact hv.elim
      | notANumber => exact hv.elim
      | zero t => rfl
      | finite t n f hn => rfl
  | finite s m e hm =>
      cases v with
      | infinity t => exact hv.elim
      | notANumber => exact hv.elim
      | zero t =>
          obtain rfl : y = 0 := hv
          rw [mul_zero, rounded_zero]
          rfl
      | finite t n f hn =>
          obtain ⟨hcu, rfl⟩ := hu
          obtain ⟨hcv, rfl⟩ := hv
          have hround := encodes_roundWithAccuracy (s := s * t) (approximates_exact (m * n))
            (mul_place hm hn hcu hcv)
          have hproduct : ((s.apply m : ℤ) : ℚ) * 2 ^ e * ((t.apply n : ℤ) * 2 ^ f) =
              ((s * t).apply 1 : ℤ) * ((m * n : ℕ) * 2 ^ (e + f)) := by
            rw [apply_mul, cast_apply s, cast_apply t, zpow_add₀ two_ne_zero]
            push_cast
            ring
          rw [hproduct, rounded_apply]
          exact hround

/-- The quotient of the mantissas is taken to so many places that it fills a
mantissa. -/
private theorem divCore_place {m n : ℕ} {e f k : ℤ} (hm : 0 < m) (hn : 0 < n)
    (hk : k = min (e - f) (max ((m.log2 : ℤ) + e - n.log2 - f - 53) (-1074))) :
    k ≤ max (((m <<< (e - f - k).toNat / n).log2 : ℤ) + k - 52) (-1074) := by
  by_cases hmin : k ≤ -1074
  · omega
  · have hlarge : 2 ^ 52 ≤ m <<< (e - f - k).toNat / n := by
      rw [Nat.le_div_iff_mul_le hn]
      have hlog : n.log2 + 53 ≤ m.log2 + (e - f - k).toNat := by omega
      calc 2 ^ 52 * n ≤ 2 ^ 52 * 2 ^ (n.log2 + 1) := Nat.mul_le_mul_left _ Nat.lt_log2_self.le
        _ = 2 ^ (n.log2 + 53) := by
            rw [← pow_add]
            congr 1
            omega
        _ ≤ 2 ^ (m.log2 + (e - f - k).toNat) := Nat.pow_le_pow_right two_pos hlog
        _ = 2 ^ m.log2 * 2 ^ (e - f - k).toNat := pow_add _ _ _
        _ ≤ m * 2 ^ (e - f - k).toNat := Nat.mul_le_mul_right _ (Nat.log2_self_le hm.ne')
        _ = m <<< (e - f - k).toNat := (Nat.shiftLeft_eq _ _).symm
    have := (Nat.le_log2 (by omega)).2 hlarge
    omega

private theorem quotient_add_fraction (m k : ℕ) {n : ℕ} (hn : 0 < n) :
    ((m <<< k / n : ℕ) : ℚ) + ((m <<< k % n : ℕ) : ℚ) / n = m * 2 ^ k / n := by
  have hn' : (n : ℚ) ≠ 0 := by exact_mod_cast hn.ne'
  have hdiv := Nat.div_add_mod' (m <<< k) n
  rw [Nat.shiftLeft_eq] at hdiv ⊢
  rw [eq_div_iff hn', add_mul, div_mul_cancel₀ _ hn']
  exact_mod_cast hdiv

theorem encodes_div {u v : UnpackedFloat} {x y : ℚ} (hu : Encodes u x) (hv : Encodes v y)
    (hy : y ≠ 0) : Encodes (UnpackedFloat.div Format.binary64 u v) (rounded (x / y)) := by
  cases v with
  | infinity t => exact hv.elim
  | notANumber => exact hv.elim
  | zero t => exact absurd hv hy
  | finite t n f hn =>
      cases u with
      | infinity s => exact hu.elim
      | notANumber => exact hu.elim
      | zero s =>
          obtain rfl : x = 0 := hu
          rw [zero_div, rounded_zero]
          rfl
      | finite s m e hm =>
          obtain ⟨-, rfl⟩ := hu
          obtain ⟨-, rfl⟩ := hv
          have hbits : (Format.binary64.mantissaBits : ℤ) = 53 := by decide
          have hleast : Format.binary64.minExponent = -1074 := by decide
          simp only [UnpackedFloat.div, divCore, Format.targetExponent, totalExponent, hbits,
            hleast]
          generalize hk : min (e - f)
            (max ((m.log2 : ℤ) + 1 + e - (n.log2 + 1 + f) - 53) (-1074)) = k
          have hplace := divCore_place (e := e) (f := f) (k := k) hm hn (by omega)
          have happrox := approximates_fraction (m := m <<< (e - f - k).toNat / n)
            (Nat.mod_lt (m <<< (e - f - k).toNat) hn)
          have hround := encodes_roundWithAccuracy (s := s / t) happrox hplace
          have hvalue : ((s.apply m : ℤ) : ℚ) * 2 ^ e / ((t.apply n : ℤ) * 2 ^ f) =
              ((s / t).apply 1 : ℤ) * (m * 2 ^ (e - f - k).toNat / n * 2 ^ k) := by
            have hexp : (2 : ℚ) ^ (e - f - k).toNat * 2 ^ k = 2 ^ e / 2 ^ f := by
              rw [← zpow_natCast, ← zpow_add₀ two_ne_zero, ← zpow_sub₀ two_ne_zero]
              congr 1
              omega
            rw [apply_div, cast_apply s, cast_apply t, div_mul_eq_mul_div (m * _ : ℚ),
              mul_assoc (m : ℚ), hexp]
            ring
          rw [quotient_add_fraction m _ hn] at hround
          rw [hvalue, rounded_apply]
          exact hround

/-! ## Floating-point numbers -/

/-- A number that is small enough to be stored once it is rounded. -/
def InRange (x : ℚ) : Prop := |rounded x| < 2 ^ (1024 : ℤ)

variable {a b : Float} {x y : ℚ}

theorem IsValue.add (ha : IsValue a x) (hb : IsValue b y) (h : InRange (x + y)) :
    IsValue (a + b) (rounded (x + y)) :=
  isValue_pack (encodes_add ha hb) h

theorem IsValue.sub (ha : IsValue a x) (hb : IsValue b y) (h : InRange (x - y)) :
    IsValue (a - b) (rounded (x - y)) :=
  isValue_pack (encodes_sub ha hb) h

theorem IsValue.mul (ha : IsValue a x) (hb : IsValue b y) (h : InRange (x * y)) :
    IsValue (a * b) (rounded (x * y)) :=
  isValue_pack (encodes_mul ha hb) h

theorem IsValue.div (ha : IsValue a x) (hb : IsValue b y) (hy : y ≠ 0) (h : InRange (x / y)) :
    IsValue (a / b) (rounded (x / y)) :=
  isValue_pack (encodes_div ha hb hy) h

theorem inRange_of_abs_le {z : ℚ} (hz : IsDouble z) (hlt : z < 2 ^ (1024 : ℤ)) (h : |x| ≤ z) :
    InRange x :=
  (abs_rounded_le hz h).trans_lt hlt

/-! ## Constants -/

theorem isValue_zero : IsValue 0 0 := rfl

theorem isValue_of_unpack {f : Float} {m : ℕ} {e : ℤ} (hm : 0 < m)
    (h : f.toModel.unpack = .finite .positive m e hm) (hc : Canonical m e) :
    IsValue f (m * 2 ^ e) := by
  rw [IsValue, h]
  exact ⟨hc, by simp [Float.Model.UnpackedFloat.Sign.apply]⟩

theorem isValue_one : IsValue 1 1 := by
  have h := isValue_of_unpack (f := 1) (m := 2 ^ 52) (e := -52) (by norm_num) rfl
    ⟨by norm_num, by norm_num, .inl le_rfl⟩
  norm_num at h
  exact h

/-- One is neutral, also to the sign of a zero. -/
theorem IsValue.mul_one_eq {a : Float} {x : ℚ} (ha : IsValue a x) : a * 1 = a := by
  refine (congrArg (fun u => (⟨Float.Model.pack u⟩ : Float)) ?_).trans (pack_unpack_toModel a)
  by_cases hzero : x = 0
  · subst hzero
    unfold IsValue at ha
    cases hu : a.toModel.unpack with
    | zero s => cases s <;> rfl
    | finite s m e hm =>
        rw [hu] at ha
        exact absurd rfl (ne_zero_of_encodes ha)
    | infinity s => rw [hu] at ha; exact ha.elim
    | notANumber => rw [hu] at ha; exact ha.elim
  · have hmul := encodes_mul ha isValue_one
    rw [mul_one, rounded_of_isDouble ha.isDouble] at hmul
    exact hmul.unique ha hzero

theorem isValue_ofNat {n : ℕ} (h : n < 2 ^ 53) : IsValue (Float.ofNat n) n := by
  have hdouble : IsDouble (n : ℚ) := by
    have habs : |(n : ℤ)| ≤ 2 ^ 53 := by
      rw [Nat.abs_cast]
      exact_mod_cast h.le
    exact_mod_cast isDouble_intCast habs
  have hrange : InRange (n : ℚ) := by
    have hle : |(n : ℚ)| ≤ 2 ^ (53 : ℤ) := by
      rw [Nat.abs_cast]
      exact_mod_cast h.le
    exact inRange_of_abs_le (isDouble_two_zpow (by norm_num))
      (zpow_lt_zpow_right₀ one_lt_two (by norm_num)) hle
  have hword : IsValue n.toUInt64.toFloat n := by
    have hnat : n.toUInt64.toNat = n := Nat.mod_eq_of_lt (h.trans (by norm_num))
    have hencodes := encodes_normalize (n : ℤ) 0 .positive
    rw [zpow_zero, mul_one, Int.cast_natCast, rounded_of_isDouble hdouble] at hencodes
    change IsValue ⟨Float.Model.pack (normalize Format.binary64 n.toUInt64.toNat 0 .positive)⟩ n
    rw [hnat]
    exact isValue_pack hencodes (by rwa [InRange, rounded_of_isDouble hdouble] at hrange)
  have hproduct : Float.ofNat n = n.toUInt64.toFloat * 1 := by
    change Float.ofScientific n false 0 = _
    rw [Float.ofScientific, dif_pos ⟨h, Nat.zero_le _⟩]
    rfl
  have hvalue := hword.mul isValue_one (by rwa [mul_one])
  rwa [mul_one, rounded_of_isDouble hdouble, ← hproduct] at hvalue

end FuzzyInference.Binary
