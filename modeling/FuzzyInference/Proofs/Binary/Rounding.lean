import Mathlib.Data.Int.Log
import Mathlib.Data.Rat.Floor
import Mathlib.Tactic.Linarith
import Mathlib.Tactic.NormNum
import Mathlib.Tactic.Positivity
import Mathlib.Tactic.Ring

/-!
# Rounding to double precision

Pure arithmetic of rational numbers: the number of 53 significant bits, none
below `2 ^ -1074`, that is nearest to a given one.  There is no greatest
exponent here, so rounding is total; what becomes of a result too large to be
stored is said where numbers are packed.
-/

namespace FuzzyInference.Binary

/-! ## The nearest integer -/

def IsNearest (n : ℤ) (q : ℚ) : Prop :=
  |q - n| ≤ 1 / 2 ∧ (|q - n| = 1 / 2 → Even n)

theorem IsNearest.neg {n : ℤ} {q : ℚ} (h : IsNearest n q) : IsNearest (-n) (-q) := by
  have hdist : |(-q) - ((-n : ℤ) : ℚ)| = |q - n| := by
    rw [← abs_neg]
    push_cast
    congr 1
    ring
  exact ⟨hdist ▸ h.1, fun hmid => (h.2 (hdist ▸ hmid)).neg⟩

theorem IsNearest.le {m n : ℤ} {p q : ℚ} (hm : IsNearest m p) (hn : IsNearest n q)
    (hpq : p ≤ q) : m ≤ n := by
  by_contra hlt
  have hsucc : n + 1 ≤ m := by omega
  have hsucc' : (n : ℚ) + 1 ≤ m := by exact_mod_cast hsucc
  have hp := abs_le.1 hm.1
  have hq := abs_le.1 hn.1
  -- the two half-unit neighbourhoods meet in one point, which both round to even
  have heq : p = q := by linarith [hp.1, hq.2]
  have hmid : (m : ℚ) = n + 1 := by linarith [hp.1, hq.2]
  have hm_even : Even m := by
    apply hm.2
    rw [abs_of_nonpos (by linarith [hq.2])]
    linarith [hp.1, hq.2]
  have hn_even : Even n := by
    apply hn.2
    rw [abs_of_nonneg (by linarith [hp.1])]
    linarith [hp.1, hq.2]
  have hmn : m = n + 1 := by exact_mod_cast hmid
  rw [hmn] at hm_even
  exact (Int.not_even_iff_odd.2 hn_even.add_one) hm_even

theorem IsNearest.unique {m n : ℤ} {q : ℚ} (hm : IsNearest m q) (hn : IsNearest n q) :
    m = n :=
  le_antisymm (hm.le hn le_rfl) (hn.le hm le_rfl)

theorem isNearest_intCast (n : ℤ) : IsNearest n n := by
  refine ⟨by simp, fun hmid => ?_⟩
  simp at hmid

def nearestInt (q : ℚ) : ℤ :=
  if q - ⌊q⌋ < 1 / 2 then ⌊q⌋
  else if 1 / 2 < q - ⌊q⌋ then ⌊q⌋ + 1
  else ⌊q⌋ + ⌊q⌋ % 2

theorem isNearest_nearestInt (q : ℚ) : IsNearest (nearestInt q) q := by
  have hlo := Int.floor_le q
  have hhi := Int.lt_floor_add_one q
  unfold nearestInt
  split_ifs with hbelow habove
  · refine ⟨abs_le.2 ⟨by linarith, by linarith⟩, fun hmid => ?_⟩
    rw [abs_of_nonneg (by linarith)] at hmid
    linarith
  · refine ⟨abs_le.2 ⟨by push_cast; linarith, by push_cast; linarith⟩, fun hmid => ?_⟩
    rw [abs_of_nonpos (by push_cast; linarith)] at hmid
    push_cast at hmid
    linarith
  · have hmid : q - ⌊q⌋ = 1 / 2 := le_antisymm (not_lt.1 habove) (not_lt.1 hbelow)
    have hparity := Int.emod_two_eq_zero_or_one ⌊q⌋
    refine ⟨?_, fun _ => ?_⟩
    · rcases hparity with h | h <;> rw [h] <;> push_cast <;> rw [abs_le] <;>
        constructor <;> linarith
    · rw [Int.even_iff]
      omega

theorem nearestInt_eq {n : ℤ} {q : ℚ} (h : IsNearest n q) : nearestInt q = n :=
  (isNearest_nearestInt q).unique h

@[simp] theorem nearestInt_intCast (n : ℤ) : nearestInt n = n :=
  nearestInt_eq (isNearest_intCast n)

theorem nearestInt_mono {p q : ℚ} (h : p ≤ q) : nearestInt p ≤ nearestInt q :=
  (isNearest_nearestInt p).le (isNearest_nearestInt q) h

theorem nearestInt_neg (q : ℚ) : nearestInt (-q) = -nearestInt q :=
  nearestInt_eq (isNearest_nearestInt q).neg

/-! ## The grid of a number -/

/-- The exponent of the last bit that is kept of a number of this size. -/
def lastPlace (x : ℚ) : ℤ := max (Int.log 2 |x| - 52) (-1074)

/-- The number of double precision nearest to `x`. -/
def rounded (x : ℚ) : ℚ := nearestInt (x / 2 ^ lastPlace x) * 2 ^ lastPlace x

theorem two_zpow_pos (k : ℤ) : (0 : ℚ) < 2 ^ k := zpow_pos (by norm_num) k

@[simp] theorem lastPlace_neg (x : ℚ) : lastPlace (-x) = lastPlace x := by
  simp [lastPlace]

@[simp] theorem rounded_neg (x : ℚ) : rounded (-x) = -rounded x := by
  simp [rounded, neg_div, nearestInt_neg]

@[simp] theorem rounded_zero : rounded 0 = 0 := by
  have h := nearestInt_intCast 0
  rw [Int.cast_zero] at h
  simp [rounded, h]

theorem lastPlace_le {x : ℚ} {k : ℤ} (hne : x ≠ 0) (hx : |x| < 2 ^ k) (hk : -1021 ≤ k) :
    lastPlace x ≤ k - 53 := by
  have hlog := (Int.lt_zpow_iff_log_lt one_lt_two (abs_pos.2 hne)).1 (by exact_mod_cast hx)
  simp only [lastPlace]
  omega

theorem lastPlace_eq {x : ℚ} {k : ℤ} (hlo : 2 ^ k ≤ |x|) (hhi : |x| < 2 ^ (k + 1)) :
    lastPlace x = max (k - 52) (-1074) := by
  have hpos : 0 < |x| := (two_zpow_pos k).trans_le hlo
  have hge := (Int.zpow_le_iff_le_log (b := 2) one_lt_two hpos).1 (by exact_mod_cast hlo)
  have hlt := (Int.lt_zpow_iff_log_lt (b := 2) one_lt_two hpos).1 (by exact_mod_cast hhi)
  rw [lastPlace]
  omega

theorem lastPlace_mono {x y : ℚ} (hx : 0 < x) (hxy : x ≤ y) : lastPlace x ≤ lastPlace y := by
  have hlog := Int.log_mono_right (b := 2) hx hxy
  rw [lastPlace, lastPlace, abs_of_pos hx, abs_of_pos (hx.trans_le hxy)]
  omega

theorem rounded_le_of_le_grid {x : ℚ} {n : ℤ} (h : x ≤ n * 2 ^ lastPlace x) :
    rounded x ≤ n * 2 ^ lastPlace x := by
  have hscaled : x / 2 ^ lastPlace x ≤ n := (div_le_iff₀ (two_zpow_pos _)).2 h
  have hint := nearestInt_mono hscaled
  rw [nearestInt_intCast] at hint
  exact mul_le_mul_of_nonneg_right (by exact_mod_cast hint) (two_zpow_pos _).le

theorem le_rounded_of_grid_le {x : ℚ} {n : ℤ} (h : n * 2 ^ lastPlace x ≤ x) :
    n * 2 ^ lastPlace x ≤ rounded x := by
  have hscaled : (n : ℚ) ≤ x / 2 ^ lastPlace x := (le_div_iff₀ (two_zpow_pos _)).2 h
  have hint := nearestInt_mono hscaled
  rw [nearestInt_intCast] at hint
  exact mul_le_mul_of_nonneg_right (by exact_mod_cast hint) (two_zpow_pos _).le

/-! ## Numbers of double precision -/

def IsDouble (x : ℚ) : Prop := ∃ m e : ℤ, x = m * 2 ^ e ∧ |m| ≤ 2 ^ 53 ∧ -1074 ≤ e

theorem IsDouble.neg {x : ℚ} (h : IsDouble x) : IsDouble (-x) := by
  obtain ⟨m, e, rfl, hm, he⟩ := h
  exact ⟨-m, e, by push_cast; ring, by rwa [abs_neg], he⟩

private theorem grid_of_le (m : ℤ) {e k : ℤ} (hk : k ≤ e) :
    (m : ℚ) * 2 ^ e = ((m * 2 ^ (e - k).toNat : ℤ) : ℚ) * 2 ^ k := by
  have hsplit : e = ((e - k).toNat : ℤ) + k := by omega
  push_cast
  conv_lhs => rw [hsplit, zpow_add₀ two_ne_zero, zpow_natCast]
  ring

theorem isDouble_two_zpow {k : ℤ} (hk : -1074 ≤ k) : IsDouble (2 ^ k) :=
  ⟨1, k, by simp, by norm_num, hk⟩

theorem isDouble_intCast {n : ℤ} (hn : |n| ≤ 2 ^ 53) : IsDouble n :=
  ⟨n, 0, by simp, hn, by norm_num⟩

theorem IsDouble.exists_grid {x : ℚ} (h : IsDouble x) :
    ∃ n : ℤ, x = n * 2 ^ lastPlace x := by
  obtain ⟨m, e, hx, hm, he⟩ := h
  rcases eq_or_ne x 0 with rfl | hne
  · exact ⟨0, by simp⟩
  · rcases hm.lt_or_eq with hlt | hfull
    · have habs : |x| < 2 ^ (e + 53) := by
        rw [hx, abs_mul, abs_of_pos (two_zpow_pos e), zpow_add₀ two_ne_zero, mul_comm]
        apply mul_lt_mul_of_pos_left _ (two_zpow_pos e)
        exact_mod_cast hlt
      have hplace := lastPlace_le hne habs (by omega)
      exact ⟨_, hx.trans (grid_of_le m (by omega))⟩
    · -- a full mantissa is a power of two, which has the grid of the next exponent
      have habs : |x| < 2 ^ (e + 54) := by
        rw [hx, abs_mul, abs_of_pos (two_zpow_pos e), zpow_add₀ two_ne_zero, mul_comm]
        apply mul_lt_mul_of_pos_left _ (two_zpow_pos e)
        have : |(m : ℚ)| = 2 ^ 53 := by exact_mod_cast hfull
        rw [this]
        norm_num
      have hplace := lastPlace_le hne habs (by omega)
      have hcarry : x = (m / 2 : ℤ) * 2 ^ (e + 1) := by
        have htwo : m = 2 * (m / 2) := by
          rcases abs_choice m with h | h <;> omega
        rw [hx, zpow_add_one₀ two_ne_zero]
        conv_lhs => rw [htwo]
        push_cast
        ring
      exact ⟨_, hcarry.trans (grid_of_le _ (by omega))⟩

/-- Distinct numbers of double precision are at least the least positive one
apart. -/
theorem IsDouble.add_le_of_lt {x y : ℚ} (hx : IsDouble x) (hy : IsDouble y) (h : x < y) :
    x + 2 ^ (-1074 : ℤ) ≤ y := by
  obtain ⟨m, e, rfl, -, he⟩ := hx
  obtain ⟨n, f, rfl, -, hf⟩ := hy
  rw [grid_of_le m he, grid_of_le n hf] at h ⊢
  have hpos := two_zpow_pos (-1074)
  have hlt := lt_of_mul_lt_mul_right h hpos.le
  have hstep : (m * 2 ^ (e - -1074).toNat : ℤ) + 1 ≤ n * 2 ^ (f - -1074).toNat := by
    exact_mod_cast hlt
  have hstep' : ((m * 2 ^ (e - -1074).toNat : ℤ) : ℚ) + 1 ≤ (n * 2 ^ (f - -1074).toNat : ℤ) := by
    exact_mod_cast hstep
  have hscaled := mul_le_mul_of_nonneg_right hstep' hpos.le
  rwa [add_mul, one_mul] at hscaled

theorem rounded_of_isDouble {x : ℚ} (h : IsDouble x) : rounded x = x := by
  obtain ⟨n, hn⟩ := h.exists_grid
  have hcancel : x / 2 ^ lastPlace x = n := by
    rw [div_eq_iff (two_zpow_pos _).ne']
    exact hn
  rw [rounded, hcancel, nearestInt_intCast, ← hn]

/-! ## Order -/

theorem rounded_nonneg {x : ℚ} (h : 0 ≤ x) : 0 ≤ rounded x := by
  simpa using le_rounded_of_grid_le (x := x) (n := 0) (by simpa using h)

private theorem rounded_mono_of_pos {x y : ℚ} (hx : 0 < x) (hxy : x ≤ y) :
    rounded x ≤ rounded y := by
  have hy : 0 < y := hx.trans_le hxy
  rcases (lastPlace_mono hx hxy).eq_or_lt with heq | hlt
  · rw [rounded, rounded, heq]
    have hint := nearestInt_mono (div_le_div_of_nonneg_right hxy (two_zpow_pos (lastPlace y)).le)
    exact mul_le_mul_of_nonneg_right (by exact_mod_cast hint) (two_zpow_pos _).le
  · -- the power of two at which `y` starts separates the two, and both grids hold it
    rw [lastPlace, lastPlace, abs_of_pos hx, abs_of_pos hy] at hlt
    have hbelow : x < 2 ^ Int.log 2 y := by
      exact_mod_cast (Int.lt_zpow_iff_log_lt one_lt_two hx).2 (by omega)
    have habove : 2 ^ Int.log 2 y ≤ y := by
      exact_mod_cast Int.zpow_log_le_self one_lt_two hy
    have hgrid (z : ℚ) (hz : lastPlace z ≤ Int.log 2 y) :
        ∃ n : ℤ, (2 : ℚ) ^ Int.log 2 y = n * 2 ^ lastPlace z := by
      have hone := grid_of_le 1 hz
      rw [Int.cast_one, one_mul] at hone
      exact ⟨_, hone⟩
    obtain ⟨m, hm⟩ := hgrid x (by rw [lastPlace, abs_of_pos hx]; omega)
    obtain ⟨n, hn⟩ := hgrid y (by rw [lastPlace, abs_of_pos hy]; omega)
    calc rounded x ≤ m * 2 ^ lastPlace x := rounded_le_of_le_grid (hm ▸ hbelow.le)
      _ = n * 2 ^ lastPlace y := by rw [← hm, hn]
      _ ≤ rounded y := le_rounded_of_grid_le (hn ▸ habove)

theorem rounded_mono {x y : ℚ} (hxy : x ≤ y) : rounded x ≤ rounded y := by
  rcases lt_trichotomy x 0 with hx | rfl | hx
  · rcases le_or_gt 0 y with hy | hy
    · have hneg := rounded_nonneg (neg_nonneg.2 hx.le)
      rw [rounded_neg] at hneg
      exact (by linarith : rounded x ≤ 0).trans (rounded_nonneg hy)
    · have hneg := rounded_mono_of_pos (neg_pos.2 hy) (neg_le_neg hxy)
      rw [rounded_neg, rounded_neg] at hneg
      linarith
  · rw [rounded_zero]
    exact rounded_nonneg hxy
  · exact rounded_mono_of_pos hx hxy

theorem rounded_le {x y : ℚ} (hy : IsDouble y) (hxy : x ≤ y) : rounded x ≤ y :=
  (rounded_mono hxy).trans_eq (rounded_of_isDouble hy)

theorem le_rounded {x y : ℚ} (hx : IsDouble x) (hxy : x ≤ y) : x ≤ rounded y :=
  (rounded_of_isDouble hx).symm.trans_le (rounded_mono hxy)

/-- The difference of distinct numbers of double precision is not rounded to 0. -/
theorem rounded_sub_pos {x y : ℚ} (hx : IsDouble x) (hy : IsDouble y) (h : x < y) :
    0 < rounded (y - x) := by
  have hgap := hx.add_le_of_lt hy h
  exact (two_zpow_pos _).trans_le (le_rounded (isDouble_two_zpow le_rfl) (by linarith))

theorem abs_rounded_le {x y : ℚ} (hy : IsDouble y) (hxy : |x| ≤ y) : |rounded x| ≤ y := by
  obtain ⟨hlo, hhi⟩ := abs_le.1 hxy
  exact abs_le.2 ⟨le_rounded hy.neg hlo, rounded_le hy hhi⟩

/-- Up to half of the last place above a power of two is lost, because of two
neighbours the power is the even one. -/
theorem rounded_le_two_zpow {x : ℚ} {k : ℤ} (hk : -1022 ≤ k) (h : x ≤ 2 ^ k + 2 ^ (k - 53)) :
    rounded x ≤ 2 ^ k := by
  have hplaces (n : ℕ) {e : ℤ} (he : e = k - 53 + n) : (2 : ℚ) ^ e = 2 ^ n * 2 ^ (k - 53) := by
    rw [he, zpow_add₀ two_ne_zero, zpow_natCast, mul_comm]
  have hwhole : (2 : ℚ) ^ k = 2 ^ 53 * 2 ^ (k - 53) := hplaces 53 (by omega)
  have hlast : (2 : ℚ) ^ (k - 52) = 2 ^ 1 * 2 ^ (k - 53) := hplaces 1 (by omega)
  have hnext : (2 : ℚ) ^ (k + 1) = 2 ^ 54 * 2 ^ (k - 53) := hplaces 54 (by omega)
  have hpos := two_zpow_pos (k - 53)
  have hbound : |(2 : ℚ) ^ k + 2 ^ (k - 53)| = 2 ^ k + 2 ^ (k - 53) :=
    abs_of_pos (add_pos (two_zpow_pos k) hpos)
  have hplace : lastPlace (2 ^ k + 2 ^ (k - 53)) = k - 52 := by
    rw [lastPlace_eq (k := k), max_eq_left (by omega)]
    · rw [hbound]
      linarith
    · rw [hbound, hnext, hwhole]
      linarith
  have hscaled : (2 ^ k + 2 ^ (k - 53) : ℚ) / 2 ^ (k - 52) = 2 ^ 52 + 1 / 2 := by
    rw [hlast, hwhole]
    field_simp
  -- half-way between two neighbours, of which the power of two is the even one
  have hnear : IsNearest (2 ^ 52) ((2 ^ k + 2 ^ (k - 53)) / 2 ^ (k - 52)) := by
    have hdist : |(2 ^ 52 + 1 / 2 : ℚ) - ((2 ^ 52 : ℤ) : ℚ)| = 1 / 2 := by
      norm_num
    rw [hscaled]
    exact ⟨hdist.le, fun _ => ⟨2 ^ 51, by norm_num⟩⟩
  calc rounded x ≤ rounded (2 ^ k + 2 ^ (k - 53)) := rounded_mono h
    _ = ((2 ^ 52 : ℤ) : ℚ) * 2 ^ (k - 52) := by rw [rounded, hplace, nearestInt_eq hnear]
    _ = 2 ^ k := by
        rw [hlast, hwhole]
        push_cast
        ring

/-! ## Error -/

theorem abs_rounded_sub_le_half_place (x : ℚ) :
    |rounded x - x| ≤ 2 ^ lastPlace x / 2 := by
  have hpos := two_zpow_pos (lastPlace x)
  have hnear := (isNearest_nearestInt (x / 2 ^ lastPlace x)).1
  have hscale : rounded x - x =
      (nearestInt (x / 2 ^ lastPlace x) - x / 2 ^ lastPlace x) * 2 ^ lastPlace x := by
    rw [sub_mul, div_mul_cancel₀ _ hpos.ne', rounded]
  rw [hscale, abs_mul, abs_of_pos hpos, abs_sub_comm]
  linarith [mul_le_mul_of_nonneg_right hnear hpos.le]

/-- Numbers up to a power of two lose at most half of the last place below it. -/
theorem abs_rounded_sub_le {x : ℚ} {k : ℤ} (hx : |x| ≤ 2 ^ k) (hk : -1021 ≤ k) :
    |rounded x - x| ≤ 2 ^ (k - 54) := by
  rcases hx.lt_or_eq with hlt | hfull
  · rcases eq_or_ne x 0 with rfl | hne
    · simpa using (two_zpow_pos (k - 54)).le
    · have hplace := lastPlace_le hne hlt hk
      calc |rounded x - x| ≤ 2 ^ lastPlace x / 2 := abs_rounded_sub_le_half_place x
        _ = (2 : ℚ) ^ (lastPlace x - 1) := by rw [zpow_sub_one₀ two_ne_zero, div_eq_mul_inv]
        _ ≤ 2 ^ (k - 54) := zpow_le_zpow_right₀ one_le_two (by omega)
  · have hdouble : IsDouble x := by
      rcases abs_choice x with h | h
      · exact h ▸ hfull ▸ isDouble_two_zpow (by omega)
      · have hneg : x = -2 ^ k := by linarith
        exact hneg ▸ (isDouble_two_zpow (by omega)).neg
    rw [rounded_of_isDouble hdouble, sub_self, abs_zero]
    exact (two_zpow_pos _).le

end FuzzyInference.Binary
