import FuzzyInference.Decimal.Shortest
import FuzzyInference.Proofs.Binary.Value

/-!
# Shortest decimals round to their numbers

Pure arithmetic of rational numbers.  The grid point that is chosen for a binary
number lies in the interval around it, whatever the spacing of the grid, and what
lies in the interval rounds to the number.
-/

namespace FuzzyInference

def Decimal.value (d : Decimal) : ℚ := d.digits * 10 ^ d.exponent

/-! ## Grid points of a window -/

namespace Window

/-- The multiple `n` of the spacing lies in the window.  The ends belong to it
when `closed`. -/
structure Holds (w : Window) (closed : Bool) (n : ℕ) : Prop where
  below : w.center < n * w.spacing + w.below ∨
    closed = true ∧ w.center = n * w.spacing + w.below
  above : n * w.spacing < w.center + w.above ∨
    closed = true ∧ n * w.spacing = w.center + w.above

variable {w : Window} {closed : Bool} {n : ℕ}

theorem holds_of_nearest? (hbelow : 0 < w.below) (habove : 0 < w.above) (hspacing : 0 < w.spacing)
    (h : w.nearest? closed = some n) : w.Holds closed n := by
  have hlower : w.center / w.spacing * w.spacing ≤ w.center := Nat.div_mul_le_self _ _
  have hupper : w.center < (w.center / w.spacing + 1) * w.spacing := by
    rw [mul_comm]
    exact Nat.lt_mul_div_succ _ hspacing
  unfold nearest? at h
  simp only [Bool.and_eq_true, Bool.or_eq_true, decide_eq_true_eq, beq_iff_eq] at h
  split at h
  · next hup =>
      cases h
      refine ⟨.inl (by omega), ?_⟩
      rcases hup.1 with hinside | ⟨hclosed, hend⟩
      · exact .inl (by omega)
      · exact .inr ⟨hclosed, by omega⟩
  · split at h
    · next hdown =>
        cases h
        refine ⟨?_, .inl (by omega)⟩
        rcases hdown with hinside | ⟨hclosed, hend⟩
        · exact .inl (by omega)
        · exact .inr ⟨hclosed, by omega⟩
    · cases h

theorem holds_of_dvd (hbelow : 0 < w.below) (habove : 0 < w.above) (h : w.spacing ∣ w.center) :
    w.Holds closed (w.center / w.spacing) := by
  have hcenter := Nat.div_mul_cancel h
  exact ⟨.inl (by omega), .inl (by omega)⟩

end Window

/-! ## The interval around a binary number -/

namespace BinaryNumber

variable {b : BinaryNumber} {k finest : ℤ} {n : ℕ} {q : ℚ}

def value (b : BinaryNumber) : ℚ := b.mantissa * 2 ^ b.exponent

/-- How far the interval reaches below the number, in units of the last binary
place. -/
def reach (b : BinaryNumber) : ℚ := if b.closeBelow then 1 / 4 else 1 / 2

/-- The number lies in the interval around `b`, whose ends belong to it where the
mantissa is even. -/
structure Surrounds (b : BinaryNumber) (q : ℚ) : Prop where
  below : b.mantissa < q / 2 ^ b.exponent + b.reach ∨
    Even b.mantissa ∧ (b.mantissa : ℚ) = q / 2 ^ b.exponent + b.reach
  above : q / 2 ^ b.exponent < b.mantissa + 1 / 2 ∨
    Even b.mantissa ∧ q / 2 ^ b.exponent = b.mantissa + 1 / 2

/-- A quarter of a unit in the last binary place of `b` on the grid of the
multiples of `10 ^ k`. -/
def quarter (b : BinaryNumber) (k : ℤ) : ℕ := 2 ^ b.exponent.toNat * 10 ^ (-k).toNat

theorem quarter_pos (b : BinaryNumber) (k : ℤ) : 0 < b.quarter k := by
  unfold quarter
  positivity

theorem center_window (b : BinaryNumber) (k : ℤ) :
    (b.window k).center = 4 * b.mantissa * b.quarter k := rfl

theorem below_window (b : BinaryNumber) (k : ℤ) :
    ((b.window k).below : ℚ) = 4 * b.reach * b.quarter k := by
  change (((if b.closeBelow then 1 else 2) * b.quarter k : ℕ) : ℚ) = _
  cases hclose : b.closeBelow
  · simp only [reach, hclose, Bool.false_eq_true, ↓reduceIte]
    push_cast
    ring
  · simp only [reach, hclose, ↓reduceIte]
    push_cast
    ring

theorem above_window (b : BinaryNumber) (k : ℤ) : (b.window k).above = 2 * b.quarter k := rfl

private theorem zpow_eq_toNat {a : ℚ} (ha : a ≠ 0) (k : ℤ) :
    a ^ k * a ^ (-k).toNat = a ^ k.toNat := by
  rw [← zpow_natCast, ← zpow_natCast, ← zpow_add₀ ha]
  congr 1
  omega

theorem spacing_window (b : BinaryNumber) (k : ℤ) :
    ((b.window k).spacing : ℚ) = 4 * (10 ^ k / 2 ^ b.exponent) * b.quarter k := by
  have htwo := zpow_eq_toNat (a := 2) two_ne_zero b.exponent
  have hten := zpow_eq_toNat (a := 10) (by norm_num) k
  have hpos := (Binary.two_zpow_pos b.exponent).ne'
  change ((4 * 2 ^ (-b.exponent).toNat * 10 ^ k.toNat : ℕ) : ℚ) = _
  rw [quarter]
  push_cast
  rw [← hten, ← htwo]
  field_simp

theorem below_pos (b : BinaryNumber) (k : ℤ) : 0 < (b.window k).below :=
  Nat.mul_pos (by split <;> decide) (b.quarter_pos k)

theorem above_pos (b : BinaryNumber) (k : ℤ) : 0 < (b.window k).above :=
  Nat.mul_pos two_pos (b.quarter_pos k)

theorem spacing_pos (b : BinaryNumber) (k : ℤ) : 0 < (b.window k).spacing := by
  change 0 < 4 * 2 ^ (-b.exponent).toNat * 10 ^ k.toNat
  positivity

/-- A window shows the interval on its grid. -/
theorem surrounds_of_holds (h : (b.window k).Holds (b.mantissa % 2 == 0) n) :
    b.Surrounds (n * 10 ^ k) := by
  have hquarter : (0 : ℚ) < 4 * b.quarter k := by
    have := b.quarter_pos k
    positivity
  have hcenter : ((b.window k).center : ℚ) = b.mantissa * (4 * b.quarter k) := by
    rw [center_window]
    push_cast
    ring
  have hpoint : ((n * (b.window k).spacing : ℕ) : ℚ) =
      n * 10 ^ k / 2 ^ b.exponent * (4 * b.quarter k) := by
    push_cast
    rw [spacing_window]
    ring
  have hbelow : ((n * (b.window k).spacing + (b.window k).below : ℕ) : ℚ) =
      (n * 10 ^ k / 2 ^ b.exponent + b.reach) * (4 * b.quarter k) := by
    rw [Nat.cast_add, hpoint, below_window]
    ring
  have habove : (((b.window k).center + (b.window k).above : ℕ) : ℚ) =
      (b.mantissa + 1 / 2) * (4 * b.quarter k) := by
    rw [Nat.cast_add, hcenter, above_window]
    push_cast
    ring
  have heven : (b.mantissa % 2 == 0) = true ↔ Even b.mantissa := by
    rw [beq_iff_eq, Nat.even_iff]
  constructor
  · refine h.below.imp (fun hlt => ?_) fun ⟨hclosed, heq⟩ => ⟨heven.1 hclosed, ?_⟩
    · rw [← Nat.cast_lt (α := ℚ), hcenter, hbelow] at hlt
      exact lt_of_mul_lt_mul_right hlt hquarter.le
    · rw [← Nat.cast_inj (R := ℚ), hcenter, hbelow] at heq
      exact mul_right_cancel₀ hquarter.ne' heq
  · refine h.above.imp (fun hlt => ?_) fun ⟨hclosed, heq⟩ => ⟨heven.1 hclosed, ?_⟩
    · rw [← Nat.cast_lt (α := ℚ), hpoint, habove] at hlt
      exact lt_of_mul_lt_mul_right hlt hquarter.le
    · rw [← Nat.cast_inj (R := ℚ), hpoint, habove] at heq
      exact mul_right_cancel₀ hquarter.ne' heq

/-! ## The shortest decimal -/

theorem surrounds_firstHit (hfinest : (b.window finest).spacing ∣ (b.window finest).center)
    (steps : ℕ) : b.Surrounds (b.firstHit finest steps).value := by
  induction steps with
  | zero =>
      exact surrounds_of_holds (Window.holds_of_dvd (b.below_pos _) (b.above_pos _) hfinest)
  | succ steps ih =>
      rw [firstHit]
      split
      · next n hn =>
          exact surrounds_of_holds
            (Window.holds_of_nearest? (b.below_pos _) (b.above_pos _) (b.spacing_pos _) hn)
      · exact ih

/-- On the grid of the multiples of ten to its exponent, if that is negative, or
else on the grid of the integers, a binary number is a point. -/
theorem spacing_dvd_center (b : BinaryNumber) :
    (b.window (min b.exponent 0)).spacing ∣ (b.window (min b.exponent 0)).center := by
  change 4 * 2 ^ (-b.exponent).toNat * 10 ^ (min b.exponent 0).toNat ∣
    4 * b.mantissa * (2 ^ b.exponent.toNat * 10 ^ (-min b.exponent 0).toNat)
  rcases le_total 0 b.exponent with hexp | hexp
  · rw [min_eq_right hexp, Int.toNat_eq_zero.2 (neg_nonpos.2 hexp)]
    exact ⟨b.mantissa * 2 ^ b.exponent.toNat, by simp; ring⟩
  · rw [min_eq_left hexp, Int.toNat_eq_zero.2 hexp]
    have hten : (10 : ℕ) ^ (-b.exponent).toNat =
        2 ^ (-b.exponent).toNat * 5 ^ (-b.exponent).toNat := Nat.mul_pow 2 5 _
    exact ⟨b.mantissa * 5 ^ (-b.exponent).toNat, by rw [hten]; ring⟩

theorem surrounds_shortest (b : BinaryNumber) : b.Surrounds b.shortest.value :=
  surrounds_firstHit b.spacing_dvd_center _

/-! ## Rounding back -/

structure Stored (b : BinaryNumber) : Prop where
  canonical : Binary.Canonical b.mantissa b.exponent
  pos : 0 < b.mantissa
  closeBelow : b.closeBelow = true ↔ b.mantissa = 2 ^ 52 ∧ -1074 < b.exponent

theorem reach_le (b : BinaryNumber) : b.reach ≤ 1 / 2 := by
  unfold reach
  split <;> norm_num

theorem Surrounds.le_add_reach (h : b.Surrounds q) :
    (b.mantissa : ℚ) ≤ q / 2 ^ b.exponent + b.reach := by
  rcases h.below with hlt | ⟨-, heq⟩
  · exact hlt.le
  · exact heq.le

theorem Surrounds.le_add_half (h : b.Surrounds q) :
    q / 2 ^ b.exponent ≤ b.mantissa + 1 / 2 := by
  rcases h.above with hlt | ⟨-, heq⟩
  · exact hlt.le
  · exact heq.le

theorem Surrounds.isNearest (h : b.Surrounds q) :
    Binary.IsNearest b.mantissa (q / 2 ^ b.exponent) := by
  have hreach := b.reach_le
  have hbelow := h.le_add_reach
  have habove := h.le_add_half
  rw [Binary.IsNearest, Int.cast_natCast, Int.even_coe_nat]
  refine ⟨abs_le.2 ⟨by linarith, by linarith⟩, fun htie => ?_⟩
  by_contra hodd
  have hbelow' := h.below.resolve_right fun hend => hodd hend.1
  have habove' := h.above.resolve_right fun hend => hodd hend.1
  exact htie.not_lt (abs_lt.2 ⟨by linarith, by linarith⟩)

/-- The first number of a range is half as far from the next one down as from the
next one up, so what lies below it is rounded on the grid of the range before. -/
theorem rounded_below_start {e : ℤ} (he : -1074 < e) (hlt : q / 2 ^ e < 2 ^ 52)
    (hle : 2 ^ 52 ≤ q / 2 ^ e + 1 / 4) : Binary.rounded q = 2 ^ 52 * 2 ^ e := by
  have hpos := Binary.two_zpow_pos e
  have hhalf : (2 : ℚ) ^ e = 2 * 2 ^ (e - 1) := by
    rw [← zpow_one_add₀ two_ne_zero, add_sub_cancel]
  have hdouble : q / 2 ^ (e - 1) = 2 * (q / 2 ^ e) := by
    rw [hhalf]
    field_simp
  have hq : 0 < q := by
    refine (div_pos_iff_of_pos_right hpos).1 ?_
    linarith
  have hplace : Binary.lastPlace q = e - 1 := by
    rw [Binary.lastPlace_eq (k := e + 51), max_eq_left (by omega)]
    · ring
    · rw [abs_of_pos hq, zpow_add₀ two_ne_zero, ← le_div_iff₀' hpos]
      norm_num
      linarith
    · rw [abs_of_pos hq, add_assoc, zpow_add₀ two_ne_zero, ← div_lt_iff₀' hpos]
      norm_num
      linarith
  have hnear : Binary.IsNearest (2 ^ 53) (q / 2 ^ (e - 1)) := by
    rw [Binary.IsNearest, hdouble]
    push_cast
    exact ⟨abs_le.2 ⟨by linarith, by linarith⟩, fun _ => ⟨2 ^ 52, by norm_num⟩⟩
  rw [Binary.rounded, hplace, Binary.nearestInt_eq hnear, hhalf]
  push_cast
  ring

/-- What lies in the interval around a number of double precision rounds to it. -/
theorem Surrounds.rounded_eq (h : b.Surrounds q) (hb : b.Stored) :
    Binary.rounded q = b.value := by
  have hpos := Binary.two_zpow_pos b.exponent
  have hreach := b.reach_le
  have hbelow := h.le_add_reach
  have habove := h.le_add_half
  have hmantissa : (1 : ℚ) ≤ b.mantissa := by exact_mod_cast hb.pos
  have hfits : (b.mantissa : ℚ) + 1 ≤ 2 ^ 53 := by exact_mod_cast hb.canonical.lt
  have hq : 0 < q := by
    refine (div_pos_iff_of_pos_right hpos).1 ?_
    linarith
  have hupper : |q| < 2 ^ (b.exponent + 53) := by
    rw [abs_of_pos hq, zpow_add₀ two_ne_zero, ← div_lt_iff₀' hpos]
    norm_num at hfits ⊢
    linarith
  have hsame (hplace : Binary.lastPlace q = b.exponent) : Binary.rounded q = b.value := by
    rw [Binary.rounded, hplace, Binary.nearestInt_eq h.isNearest, value, Int.cast_natCast]
  have hge := hb.canonical.ge
  rcases hge.eq_or_lt with hleast | hexp
  · apply hsame
    have hplace := Binary.lastPlace_le hq.ne' hupper (by omega)
    exact le_antisymm (by omega) (hleast ▸ le_max_right _ _)
  · have hnormal := hb.canonical.normal.resolve_right hexp.ne'
    -- below a power of two the last place is another one
    rcases le_or_gt (2 ^ 52) (q / 2 ^ b.exponent) with hin | hout
    · apply hsame
      have hlower : 2 ^ (b.exponent + 52) ≤ |q| := by
        rw [abs_of_pos hq, zpow_add₀ two_ne_zero, ← le_div_iff₀' hpos]
        exact_mod_cast hin
      rw [Binary.lastPlace_eq hlower (by rwa [add_assoc]), add_sub_cancel_right,
        max_eq_left hge]
    · have hstart : b.mantissa = 2 ^ 52 := by
        have hlt : (b.mantissa : ℚ) < 2 ^ 52 + 1 := by linarith
        have hlt' : b.mantissa < 2 ^ 52 + 1 := by exact_mod_cast hlt
        omega
      have hclose : b.reach = 1 / 4 := if_pos (hb.closeBelow.2 ⟨hstart, hexp⟩)
      rw [hclose, hstart] at hbelow
      rw [rounded_below_start hexp hout (by exact_mod_cast hbelow), value, hstart]
      push_cast
      rfl

/-- A number of double precision is what its shortest decimal rounds to. -/
theorem Stored.rounded_shortest (hb : b.Stored) : Binary.rounded b.shortest.value = b.value :=
  b.surrounds_shortest.rounded_eq hb

end BinaryNumber

end FuzzyInference
