import FuzzyInference.Proofs.Binary.Same

/-!
# Rounded operations keep the order

A rounded result that is too large is stored as an infinity.  Taken with the
infinities at the ends, sums and products keep the order of their arguments
even where they overflow.
-/

namespace FuzzyInference.Binary

open Float.Model Float.Model.UnpackedFloat

variable {a b c : Float} {x y z : ℚ} {u : UnpackedFloat}

/-- The place among all numbers at which a rounded number is stored. -/
def stored (q : ℚ) : WithBot (WithTop ℚ) :=
  if 2 ^ (1024 : ℤ) ≤ q then ⊤ else if q ≤ -2 ^ (1024 : ℤ) then ⊥ else (q : WithTop ℚ)

theorem stored_of_abs_lt (hx : |x| < 2 ^ (1024 : ℤ)) : stored x = (x : WithTop ℚ) := by
  obtain ⟨hlo, hhi⟩ := abs_lt.1 hx
  rw [stored, if_neg hhi.not_ge, if_neg hlo.not_ge]

theorem stored_mono (h : x ≤ y) : stored x ≤ stored y := by
  unfold stored
  by_cases hy : 2 ^ (1024 : ℤ) ≤ y
  · rw [if_pos hy]
    exact le_top
  · by_cases hx : x ≤ -2 ^ (1024 : ℤ)
    · have hneg : ¬ (2 : ℚ) ^ (1024 : ℤ) ≤ x :=
        (hx.trans_lt (neg_lt_self (two_zpow_pos 1024))).not_ge
      rw [if_neg hneg, if_pos hx]
      exact bot_le
    · rw [if_neg fun hlarge => hy (hlarge.trans h), if_neg hx, if_neg hy,
        if_neg fun hsmall => hx (h.trans hsmall)]
      exact_mod_cast h

theorem level_pack (h : Encodes u x) : level ⟨Float.Model.pack u⟩ = stored x := by
  by_cases hx : |x| < 2 ^ (1024 : ℤ)
  · rw [stored_of_abs_lt hx, (isValue_pack h hx).level_eq]
  · cases u with
    | infinity s => exact h.elim
    | notANumber => exact h.elim
    | zero s =>
        obtain rfl : x = 0 := h
        rw [abs_zero] at hx
        exact absurd (two_zpow_pos 1024) hx
    | finite s m e hm =>
        obtain ⟨hc, rfl⟩ := h
        have he : 972 ≤ e := by
          by_contra hsmall
          have hunpack := @unpack_pack_finite s m e hm hc (by omega)
          have hvalue : IsValue ⟨Float.Model.pack (.finite s m e hm)⟩ (s.apply m * 2 ^ e) := by
            change Encodes (unpack Format.binary64 (pack Format.binary64 _)) _
            rw [hunpack]
            exact ⟨hc, rfl⟩
          exact hx hvalue.abs_lt
        have hmant : (0 : ℚ) < m * 2 ^ e := mul_pos (Nat.cast_pos.2 hm) (two_zpow_pos e)
        change levelOf (unpack Format.binary64 (pack Format.binary64 _)) = _
        rw [unpack_pack_of_large he]
        cases s with
        | positive =>
            simp only [Sign.apply, Int.cast_natCast] at hx ⊢
            rw [abs_of_pos hmant, not_lt] at hx
            rw [stored, if_pos hx, levelOf]
        | negative =>
            simp only [Sign.apply, Int.cast_neg, Int.cast_natCast, neg_mul] at hx ⊢
            rw [abs_neg, abs_of_pos hmant, not_lt] at hx
            have hneg : ¬ (2 : ℚ) ^ (1024 : ℤ) ≤ -(m * 2 ^ e) :=
              ((neg_neg_of_pos hmant).trans (two_zpow_pos 1024)).not_ge
            rw [stored, if_neg hneg, if_pos (neg_le_neg hx), levelOf]

theorem IsValue.level_add (ha : IsValue a x) (hb : IsValue b y) :
    level (a + b) = stored (rounded (x + y)) :=
  level_pack (encodes_add ha hb)

theorem IsValue.level_mul (ha : IsValue a x) (hb : IsValue b y) :
    level (a * b) = stored (rounded (x * y)) :=
  level_pack (encodes_mul ha hb)

theorem IsValue.level_add_le (ha : IsValue a x) (hb : ¬ IsNaN b) (hc : ¬ IsNaN c)
    (h : level b ≤ level c) : level (a + b) ≤ level (a + c) := by
  rcases isValue_or_infinity hb with ⟨y, hy⟩ | ⟨s, hs⟩
  · rcases isValue_or_infinity hc with ⟨z, hz⟩ | ⟨t, ht⟩
    · rw [hy.level_eq, hz.level_eq] at h
      rw [ha.level_add hy, ha.level_add hz]
      exact stored_mono (rounded_mono (add_le_add_right (by exact_mod_cast h) x))
    · have hsum := ha.add_infinity ht
      cases t with
      | positive =>
          rw [level, level, hsum]
          exact le_top
      | negative =>
          rw [hy.level_eq, level, ht] at h
          exact absurd h (by simp [levelOf])
  · have hsum := ha.add_infinity hs
    cases s with
    | negative =>
        rw [level, hsum]
        exact bot_le
    | positive =>
        rw [level, hs] at h
        rcases isValue_or_infinity hc with ⟨z, hz⟩ | ⟨t, ht⟩
        · rw [hz.level_eq] at h
          exact absurd h (by simp [levelOf])
        · cases t with
          | positive => rw [level, level, hsum, ha.add_infinity ht]
          | negative =>
              rw [level, ht] at h
              exact absurd h (by simp [levelOf])

end FuzzyInference.Binary
