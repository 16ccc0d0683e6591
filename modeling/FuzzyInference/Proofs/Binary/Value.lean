import FuzzyInference.Proofs.Binary.Rounding
import Mathlib

/-!
# The numbers that floating-point data stand for

A finite datum stands for a rational number, and the comparisons of data are
those of the numbers, with the two infinities around them.
-/

namespace FuzzyInference.Binary

open Float.Model Float.Model.UnpackedFloat

/-! ## Finite data -/

/-- The mantissa and the exponent with which a positive number is stored. -/
structure Canonical (m : ℕ) (e : ℤ) : Prop where
  lt : m < 2 ^ 53
  ge : -1074 ≤ e
  normal : 2 ^ 52 ≤ m ∨ e = -1074

/-- The datum is finite, has the form in which it is stored, and stands for
the number. -/
def Encodes : UnpackedFloat → ℚ → Prop
  | .zero _, q => q = 0
  | .finite s m e _, q => Canonical m e ∧ q = s.apply m * 2 ^ e
  | _, _ => False

theorem Encodes.isDouble {u : UnpackedFloat} {q : ℚ} (h : Encodes u q) : IsDouble q := by
  cases u with
  | zero s =>
      obtain rfl : q = 0 := h
      exact ⟨0, 0, by simp, by norm_num, by norm_num⟩
  | finite s m e hm =>
      obtain ⟨hc, rfl⟩ := h
      have hlt := hc.lt
      refine ⟨s.apply m, e, rfl, ?_, hc.ge⟩
      cases s <;> simp only [Sign.apply, abs_neg, Nat.abs_cast] <;> omega
  | infinity s => exact h.elim
  | notANumber => exact h.elim

/-! ## Packing -/

theorem toNat_leading_append (m : BitVec 52) : (1#1 ++ m).toNat = 2 ^ 52 + m.toNat := by
  rw [BitVec.toNat_append, ← Nat.shiftLeft_add_eq_or_of_lt m.isLt]
  rfl

theorem canonical_of_unpack {b : BitVec 64} {s : Sign} {m : ℕ} {e : ℤ} {hm : 0 < m}
    (h : unpack Format.binary64 b = .finite s m e hm) : Canonical m e ∧ e ≤ 971 := by
  have hmant : (@unpackMantissa Format.binary64 b).toNat < 2 ^ 52 := BitVec.isLt _
  have hexp : (@unpackExponent Format.binary64 b).toNat < 2 ^ 11 := BitVec.isLt _
  simp only [UnpackedFloat.unpack] at h
  split at h
  · split at h <;> cases h
  · next htop =>
    have htop' : (@unpackExponent Format.binary64 b).toNat ≠ 2047 :=
      fun heq => htop (BitVec.eq_of_toNat_eq heq)
    split at h
    · next hzero =>
      split at h
      · cases h
      · cases h
        rw [hzero]
        exact ⟨⟨hmant.trans (by norm_num), by decide, .inr (by decide)⟩, by decide⟩
    · next hzero =>
      cases h
      have hzero' : (@unpackExponent Format.binary64 b).toNat ≠ 0 :=
        fun heq => hzero (BitVec.eq_of_toNat_eq heq)
      have hlead := toNat_leading_append (@unpackMantissa Format.binary64 b)
      have hbias : (Format.binary64.exponentBias : ℤ) + (52 : ℕ) = 1075 := by decide
      refine ⟨⟨?_, ?_, .inl ?_⟩, ?_⟩ <;> omega

private theorem unpack_normal {s : Sign} {e : BitVec 11} {m : BitVec 52} (htop : e ≠ -1#11)
    (hzero : e ≠ 0#11) :
    unpack Format.binary64 (packComponents Format.binary64 s e m) =
      .finite s (1#1 ++ m).toNat (e.toNat - 1075) (by rw [toNat_leading_append]; omega) := by
  simp only [UnpackedFloat.unpack, unpackExponent_packComponents, unpackMantissa_packComponents,
    unpackSign_packComponents, Sign.ofBitVec_toBitVec, if_neg htop, if_neg hzero]
  rfl

private theorem unpack_subnormal {s : Sign} {m : BitVec 52} (hm : m ≠ 0#52) :
    unpack Format.binary64 (packComponents Format.binary64 s 0#11 m) =
      .finite s m.toNat (-1074) (by simpa [BitVec.toNat_pos, BitVec.pos_iff_ne_zero]) := by
  have htop : (0#11) ≠ -1#11 := by decide
  simp only [UnpackedFloat.unpack, unpackExponent_packComponents, unpackMantissa_packComponents,
    unpackSign_packComponents, Sign.ofBitVec_toBitVec, if_neg htop, ↓reduceIte, dif_neg hm]
  rfl

private theorem biased_eq (e : ℤ) :
    e + (Format.binary64.exponentBias : ℤ) + (52 : ℕ) = e + 1075 := by
  have hbias : (Format.binary64.exponentBias : ℤ) = 1023 := by decide
  rw [hbias]
  push_cast
  ring

private theorem unpack_pack_normal {s : Sign} {m : ℕ} {e : ℤ} {hm : 0 < m} (h : Canonical m e)
    (he : e ≤ 971) (hnormal : 2 ^ 52 ≤ m) :
    unpack Format.binary64 (pack Format.binary64 (.finite s m e hm)) = .finite s m e hm := by
  have hlt := h.lt
  have hge := h.ge
  have hlog : m.log2 + 1 = Format.binary64.mantissaBits := by
    rw [(Nat.log2_eq_iff hm.ne').2 ⟨hnormal, hlt⟩]
    rfl
  have hfits : ¬ 2 ^ 11 ≤ (e + 1075).toNat + 1 := by omega
  have hexp : (BitVec.ofNat 11 (e + 1075).toNat).toNat = (e + 1075).toNat := by
    rw [BitVec.toNat_ofNat, Nat.mod_eq_of_lt (by omega)]
  have hmant : (1#1 ++ BitVec.ofNat 52 m).toNat = m := by
    rw [toNat_leading_append, BitVec.toNat_ofNat]
    omega
  have htop : BitVec.ofNat 11 (e + 1075).toNat ≠ -1#11 := by
    intro heq
    have hval := hexp.symm.trans (congrArg BitVec.toNat heq)
    change (e + 1075).toNat = 2047 at hval
    omega
  have hzero : BitVec.ofNat 11 (e + 1075).toNat ≠ 0#11 := by
    intro heq
    have hval := hexp.symm.trans (congrArg BitVec.toNat heq)
    change (e + 1075).toNat = 0 at hval
    omega
  simp only [UnpackedFloat.pack, biased_eq, if_neg hfits, if_pos hlog]
  rw [unpack_normal htop hzero]
  simp only [hmant, hexp]
  congr 1
  omega

private theorem unpack_pack_subnormal {s : Sign} {m : ℕ} {hm : 0 < m} (hsmall : m < 2 ^ 52) :
    unpack Format.binary64 (pack Format.binary64 (.finite s m (-1074) hm)) =
      .finite s m (-1074) hm := by
  have hfits : ¬ 2 ^ 11 ≤ ((-1074 : ℤ) + 1075).toNat + 1 := by norm_num
  have hlog : ¬ m.log2 + 1 = Format.binary64.mantissaBits := by
    have := (Nat.log2_lt hm.ne').2 hsmall
    change ¬ m.log2 + 1 = 53
    omega
  have hmant : (BitVec.ofNat 52 m).toNat = m := by
    rw [BitVec.toNat_ofNat, Nat.mod_eq_of_lt hsmall]
  have hzero : BitVec.ofNat 52 m ≠ 0#52 := by
    intro heq
    have hval := hmant.symm.trans (congrArg BitVec.toNat heq)
    change m = 0 at hval
    omega
  simp only [UnpackedFloat.pack, biased_eq, if_neg hfits, if_neg hlog]
  rw [unpack_subnormal hzero]
  simp only [hmant]

theorem unpack_pack_finite {s : Sign} {m : ℕ} {e : ℤ} {hm : 0 < m} (h : Canonical m e)
    (he : e ≤ 971) :
    unpack Format.binary64 (pack Format.binary64 (.finite s m e hm)) = .finite s m e hm := by
  by_cases hnormal : 2 ^ 52 ≤ m
  · exact unpack_pack_normal h he hnormal
  · obtain rfl := h.normal.resolve_left hnormal
    exact unpack_pack_subnormal (not_le.1 hnormal)

theorem unpack_pack_of_large {s : Sign} {m : ℕ} {e : ℤ} {hm : 0 < m} (he : 972 ≤ e) :
    unpack Format.binary64 (pack Format.binary64 (.finite s m e hm)) = .infinity s := by
  have hfits : 2 ^ 11 ≤ (e + 1075).toNat + 1 := by omega
  simp only [UnpackedFloat.pack, biased_eq, if_pos hfits]
  cases s <;> rfl

/-! ## Unpacking -/

private theorem packComponents_parts {b : BitVec 64} {e : BitVec 11} {m : BitVec 52}
    (he : @unpackExponent Format.binary64 b = e) (hm : @unpackMantissa Format.binary64 b = m) :
    packComponents Format.binary64 (Sign.ofBitVec (@unpackSign Format.binary64 b)) e m = b := by
  have hsign (v : BitVec 1) : (Sign.ofBitVec v).toBitVec = v := by
    revert v
    decide
  rw [← he, ← hm, packComponents, hsign]
  simp only [unpackSign, unpackExponent, unpackMantissa, BitVec.extractLsb]
  ext i hi
  grind

private theorem log2_leading_append (m : BitVec 52) :
    (1#1 ++ m).toNat.log2 + 1 = Format.binary64.mantissaBits := by
  have hlt := m.isLt
  have hlog : (2 ^ 52 + m.toNat).log2 = 52 := (Nat.log2_eq_iff (by omega)).2 ⟨by omega, by omega⟩
  rw [toNat_leading_append, hlog]
  rfl

private theorem log2_of_subnormal {m : BitVec 52} (hm : m ≠ 0#52) :
    ¬ m.toNat.log2 + 1 = Format.binary64.mantissaBits := by
  have hpos : m.toNat ≠ 0 := fun heq => hm (BitVec.eq_of_toNat_eq heq)
  have hlog := (Nat.log2_lt hpos).2 m.isLt
  change ¬ m.toNat.log2 + 1 = 53
  omega

/-- What is unpacked is packed again as it was stored. -/
theorem pack_unpack {b : BitVec 64} (hb : Format.binary64.Valid b) :
    pack Format.binary64 (unpack Format.binary64 b) = b := by
  have hexp : (@unpackExponent Format.binary64 b).toNat < 2 ^ 11 := BitVec.isLt _
  have hmant : (@unpackMantissa Format.binary64 b).toNat < 2 ^ 52 := BitVec.isLt _
  have hbias : (Format.binary64.exponentBias : ℤ) = 1023 := by decide
  have hplaces : (Format.binary64.mantissaBitsWithoutImplicit : ℤ) = 52 := by decide
  have hbits : Format.binary64.exponentBits = 11 := by decide
  simp only [UnpackedFloat.unpack]
  split
  · next htop =>
    split
    · next hnone => exact packComponents_parts htop hnone
    · next hsome => exact (hb.eq_packedNaN htop hsome).symm
  · next htop =>
    have htop' : (@unpackExponent Format.binary64 b).toNat ≠ 2047 :=
      fun heq => htop (BitVec.eq_of_toNat_eq heq)
    split
    · next hzero =>
      have hzero' : (@unpackExponent Format.binary64 b).toNat = 0 := congrArg BitVec.toNat hzero
      split
      · next hnone => exact packComponents_parts hzero hnone
      · next hsome =>
        simp only [UnpackedFloat.pack]
        rw [if_neg (by omega), if_neg (log2_of_subnormal hsome)]
        apply packComponents_parts hzero
        exact ((BitVec.ofNat_toNat 52 _).trans (BitVec.setWidth_eq _)).symm
    · next hzero =>
      simp only [UnpackedFloat.pack]
      rw [if_neg (by omega), if_pos (log2_leading_append _)]
      apply packComponents_parts
      · apply BitVec.eq_of_toNat_eq
        have hmodulus : 2 ^ Format.binary64.exponentBits = 2 ^ 11 := rfl
        rw [BitVec.toNat_ofNat, hmodulus]
        omega
      · apply BitVec.eq_of_toNat_eq
        have hmodulus : 2 ^ Format.binary64.mantissaBitsWithoutImplicit = 2 ^ 52 := rfl
        rw [BitVec.toNat_ofNat, toNat_leading_append, hmodulus]
        omega

theorem pack_unpack_toModel (f : Float) : (⟨Float.Model.pack f.toModel.unpack⟩ : Float) = f := by
  obtain ⟨⟨bits, hvalid⟩⟩ := f
  have hbits := pack_unpack hvalid
  simp only [Float.Model.pack, Float.Model.unpack, hbits]

/-! ## Values -/

def IsValue (f : Float) (q : ℚ) : Prop := Encodes f.toModel.unpack q

theorem IsValue.isDouble {f : Float} {q : ℚ} (h : IsValue f q) : IsDouble q :=
  Encodes.isDouble h

theorem isFinite_iff {f : Float} : f.isFinite = true ↔ ∃ q, IsValue f q := by
  change f.toModel.unpack.isFinite = true ↔ ∃ q, Encodes f.toModel.unpack q
  cases hu : f.toModel.unpack with
  | zero s => simp [UnpackedFloat.isFinite, Encodes]
  | finite s m e hm =>
      have hc := (canonical_of_unpack hu).1
      simp [UnpackedFloat.isFinite, Encodes, hc]
  | infinity s => simp [UnpackedFloat.isFinite, Encodes]
  | notANumber => simp [UnpackedFloat.isFinite, Encodes]

theorem IsValue.isFinite {f : Float} {q : ℚ} (h : IsValue f q) : f.isFinite = true :=
  isFinite_iff.2 ⟨q, h⟩

theorem isValue_or_infinity {f : Float} (h : f.toModel.unpack ≠ .notANumber) :
    (∃ q, IsValue f q) ∨ ∃ s, f.toModel.unpack = .infinity s := by
  cases hu : f.toModel.unpack with
  | infinity s => exact .inr ⟨s, rfl⟩
  | notANumber => exact absurd hu h
  | zero s =>
      refine .inl (isFinite_iff.1 ?_)
      change f.toModel.unpack.isFinite = true
      rw [hu]
      rfl
  | finite s m e hm =>
      refine .inl (isFinite_iff.1 ?_)
      change f.toModel.unpack.isFinite = true
      rw [hu]
      rfl

theorem IsValue.abs_lt {f : Float} {q : ℚ} (h : IsValue f q) : |q| < 2 ^ (1024 : ℤ) := by
  unfold IsValue at h
  cases hu : f.toModel.unpack with
  | zero s =>
      rw [hu] at h
      obtain rfl : q = 0 := h
      norm_num
  | finite s m e hm =>
      rw [hu] at h
      obtain ⟨hc, rfl⟩ := h
      have he := (canonical_of_unpack hu).2
      have hmant : |((s.apply m : ℤ) : ℚ)| < 2 ^ (53 : ℤ) := by
        have hlt := hc.lt
        have hlt' : (m : ℚ) < 2 ^ (53 : ℤ) := by exact_mod_cast hlt
        cases s <;> simpa [Sign.apply] using hlt'
      rw [abs_mul, abs_of_pos (two_zpow_pos e)]
      calc |((s.apply m : ℤ) : ℚ)| * 2 ^ e < 2 ^ (53 : ℤ) * 2 ^ e :=
            mul_lt_mul_of_pos_right hmant (two_zpow_pos e)
        _ = (2 : ℚ) ^ (53 + e) := (zpow_add₀ two_ne_zero _ _).symm
        _ ≤ 2 ^ (1024 : ℤ) := zpow_le_zpow_right₀ one_le_two (by omega)
  | infinity s => rw [hu] at h; exact h.elim
  | notANumber => rw [hu] at h; exact h.elim

theorem isValue_pack {u : UnpackedFloat} {q : ℚ} (h : Encodes u q) (hq : |q| < 2 ^ (1024 : ℤ)) :
    IsValue ⟨Float.Model.pack u⟩ q := by
  change Encodes (unpack Format.binary64 (pack Format.binary64 u)) q
  cases u with
  | zero s => cases s <;> exact h
  | finite s m e hm =>
      obtain ⟨hc, hval⟩ := h
      have he : e ≤ 971 := by
        by_contra hlarge
        have hnormal : 2 ^ 52 ≤ m := hc.normal.resolve_right (by omega)
        have hmant : (2 : ℚ) ^ (52 : ℤ) ≤ |((s.apply m : ℤ) : ℚ)| := by
          have hle : (2 : ℚ) ^ (52 : ℤ) ≤ m := by exact_mod_cast hnormal
          cases s <;> simpa [Sign.apply] using hle
        rw [hval, abs_mul, abs_of_pos (two_zpow_pos e)] at hq
        have hle : (2 : ℚ) ^ (1024 : ℤ) ≤ 2 ^ (52 : ℤ) * 2 ^ e := by
          rw [← zpow_add₀ two_ne_zero]
          exact zpow_le_zpow_right₀ one_le_two (by omega)
        exact absurd (hle.trans (mul_le_mul_of_nonneg_right hmant (two_zpow_pos e).le))
          (not_le.2 hq)
      rw [unpack_pack_finite hc he]
      exact ⟨hc, hval⟩
  | infinity s => exact h.elim
  | notANumber => exact h.elim

/-- A rounded number is stored as it is or is too large. -/
theorem unpack_pack_of_encodes {u : UnpackedFloat} {q : ℚ} (h : Encodes u q) :
    (Float.Model.pack u).unpack = u ∨ ∃ s, (Float.Model.pack u).unpack = .infinity s := by
  cases u with
  | zero s => cases s <;> exact .inl rfl
  | finite s m e hm =>
      by_cases he : e ≤ 971
      · exact .inl (unpack_pack_finite h.1 he)
      · exact .inr ⟨s, @unpack_pack_of_large s m e hm (by omega)⟩
  | infinity s => exact h.elim
  | notANumber => exact h.elim

/-! ## Order -/

private theorem magnitude_lt {m₁ m₂ : ℕ} {e₁ e₂ : ℤ} (h₁ : Canonical m₁ e₁)
    (h₂ : Canonical m₂ e₂) (he : e₁ < e₂) : (m₁ : ℚ) * 2 ^ e₁ < m₂ * 2 ^ e₂ := by
  have hge := h₁.ge
  have hnormal : (2 : ℚ) ^ (52 : ℤ) ≤ m₂ := by
    exact_mod_cast h₂.normal.resolve_right (by omega)
  have hlt : (m₁ : ℚ) < 2 ^ (53 : ℤ) := by exact_mod_cast h₁.lt
  calc (m₁ : ℚ) * 2 ^ e₁ < 2 ^ (53 : ℤ) * 2 ^ e₁ := mul_lt_mul_of_pos_right hlt (two_zpow_pos _)
    _ = 2 ^ (53 + e₁) := (zpow_add₀ two_ne_zero _ _).symm
    _ ≤ 2 ^ (52 + e₂) := zpow_le_zpow_right₀ one_le_two (by omega)
    _ = 2 ^ (52 : ℤ) * 2 ^ e₂ := zpow_add₀ two_ne_zero _ _
    _ ≤ m₂ * 2 ^ e₂ := mul_le_mul_of_nonneg_right hnormal (two_zpow_pos _).le

/-- Stored mantissas and exponents compare as the exponents do, then as the
mantissas. -/
private theorem compare_magnitudes {m₁ m₂ : ℕ} {e₁ e₂ : ℤ} (h₁ : Canonical m₁ e₁)
    (h₂ : Canonical m₂ e₂) :
    (compare e₁ e₂).then (compare m₁ m₂) = compare ((m₁ : ℚ) * 2 ^ e₁) (m₂ * 2 ^ e₂) := by
  rcases lt_trichotomy e₁ e₂ with he | rfl | he
  · rw [compare_lt_iff_lt.2 he, compare_lt_iff_lt.2 (magnitude_lt h₁ h₂ he)]
    rfl
  · have hpos := two_zpow_pos e₁
    rw [compare_eq_iff_eq.2 rfl]
    rcases lt_trichotomy m₁ m₂ with hm | rfl | hm
    · have hvalues := mul_lt_mul_of_pos_right (by exact_mod_cast hm : (m₁ : ℚ) < m₂) hpos
      rw [compare_lt_iff_lt.2 hm, compare_lt_iff_lt.2 hvalues]
      rfl
    · rw [compare_eq_iff_eq.2 rfl, compare_eq_iff_eq.2 rfl]
      rfl
    · have hvalues := mul_lt_mul_of_pos_right (by exact_mod_cast hm : (m₂ : ℚ) < m₁) hpos
      rw [compare_gt_iff_gt.2 hm, compare_gt_iff_gt.2 hvalues]
      rfl
  · rw [compare_gt_iff_gt.2 he, compare_gt_iff_gt.2 (magnitude_lt h₂ h₁ he)]
    rfl

private theorem magnitude_inj {m₁ m₂ : ℕ} {e₁ e₂ : ℤ} (h₁ : Canonical m₁ e₁)
    (h₂ : Canonical m₂ e₂) (h : (m₁ : ℚ) * 2 ^ e₁ = m₂ * 2 ^ e₂) : m₁ = m₂ ∧ e₁ = e₂ := by
  obtain rfl : e₁ = e₂ := by
    rcases lt_trichotomy e₁ e₂ with he | he | he
    · exact absurd h (magnitude_lt h₁ h₂ he).ne
    · exact he
    · exact absurd h (magnitude_lt h₂ h₁ he).ne'
  exact ⟨Nat.cast_injective (mul_right_cancel₀ (two_zpow_pos e₁).ne' h), rfl⟩

theorem ne_zero_of_encodes {s : Sign} {m : ℕ} {e : ℤ} {hm : 0 < m} {q : ℚ}
    (h : Encodes (.finite s m e hm) q) : q ≠ 0 := by
  have hpos : (0 : ℚ) < m * 2 ^ e := mul_pos (Nat.cast_pos.2 hm) (two_zpow_pos e)
  rw [h.2]
  cases s <;> simp only [Sign.apply, Int.cast_neg, Int.cast_natCast, neg_mul]
  · exact (neg_neg_of_pos hpos).ne
  · exact hpos.ne'

/-- One datum stands for a number, unless that is zero. -/
theorem Encodes.unique {u v : UnpackedFloat} {q : ℚ} (hu : Encodes u q) (hv : Encodes v q)
    (hq : q ≠ 0) : u = v := by
  cases u with
  | infinity s => exact hu.elim
  | notANumber => exact hu.elim
  | zero s => exact absurd hu hq
  | finite s m e hm =>
      cases v with
      | infinity t => exact hv.elim
      | notANumber => exact hv.elim
      | zero t => exact absurd hv hq
      | finite t n f hn =>
          obtain ⟨hcu, rfl⟩ := hu
          obtain ⟨hcv, heq⟩ := hv
          have hpos : (0 : ℚ) < m * 2 ^ e := mul_pos (Nat.cast_pos.2 hm) (two_zpow_pos e)
          have hpos' : (0 : ℚ) < n * 2 ^ f := mul_pos (Nat.cast_pos.2 hn) (two_zpow_pos f)
          cases s <;> cases t <;>
            simp only [Sign.apply, Int.cast_neg, Int.cast_natCast, neg_mul] at heq
          · obtain ⟨rfl, rfl⟩ := magnitude_inj hcu hcv (neg_injective heq)
            rfl
          · linarith
          · linarith
          · obtain ⟨rfl, rfl⟩ := magnitude_inj hcu hcv heq
            rfl

def IsNaN (f : Float) : Prop := f.toModel.unpack = .notANumber

/-- The place of a datum among the rational numbers and the two infinities.
What is not a number has none. -/
def levelOf : UnpackedFloat → WithBot (WithTop ℚ)
  | .infinity .positive => ⊤
  | .infinity .negative => ⊥
  | .zero _ => ((0 : ℚ) : WithTop ℚ)
  | .finite s m e _ => ((s.apply m * 2 ^ e : ℚ) : WithTop ℚ)
  | .notANumber => ⊥

def level (f : Float) : WithBot (WithTop ℚ) := levelOf f.toModel.unpack

theorem IsValue.level_eq {f : Float} {q : ℚ} (h : IsValue f q) : level f = (q : WithTop ℚ) := by
  unfold IsValue at h
  unfold level
  cases hu : f.toModel.unpack with
  | zero s =>
      rw [hu] at h
      obtain rfl : q = 0 := h
      rfl
  | finite s m e hm =>
      rw [hu] at h
      obtain ⟨-, rfl⟩ := h
      rfl
  | infinity s => rw [hu] at h; exact h.elim
  | notANumber => rw [hu] at h; exact h.elim

theorem IsValue.not_isNaN {f : Float} {q : ℚ} (h : IsValue f q) : ¬ IsNaN f := by
  intro hnan
  unfold IsValue at h
  rw [hnan] at h
  exact h

private theorem level_lt_coe {x y : ℚ} (h : x < y) :
    ((x : WithTop ℚ) : WithBot (WithTop ℚ)) < (y : WithTop ℚ) := by
  exact_mod_cast h

private theorem compare_coe (x y : ℚ) :
    compare ((x : WithTop ℚ) : WithBot (WithTop ℚ)) (y : WithTop ℚ) = compare x y := by
  rcases lt_trichotomy x y with h | rfl | h
  · rw [compare_lt_iff_lt.2 h, compare_lt_iff_lt.2 (level_lt_coe h)]
  · rw [compare_eq_iff_eq.2 rfl, compare_eq_iff_eq.2 rfl]
  · rw [compare_gt_iff_gt.2 h, compare_gt_iff_gt.2 (level_lt_coe h)]

private theorem compare_neg (x y : ℚ) : compare (-x) (-y) = (compare x y).swap := by
  rcases lt_trichotomy x y with h | rfl | h
  · rw [compare_lt_iff_lt.2 h, compare_gt_iff_gt.2 (neg_lt_neg h)]
    rfl
  · rw [compare_eq_iff_eq.2 rfl, compare_eq_iff_eq.2 rfl]
    rfl
  · rw [compare_gt_iff_gt.2 h, compare_lt_iff_lt.2 (neg_lt_neg h)]
    rfl

private theorem levelOf_pos {m : ℕ} {e : ℤ} (hm : 0 < m) :
    (((0 : ℚ) : WithTop ℚ) : WithBot (WithTop ℚ)) < levelOf (.finite .positive m e hm) := by
  apply level_lt_coe
  have hpos := two_zpow_pos e
  simp only [Sign.apply, Int.cast_natCast]
  positivity

private theorem levelOf_neg {m : ℕ} {e : ℤ} (hm : 0 < m) :
    levelOf (.finite .negative m e hm) < (((0 : ℚ) : WithTop ℚ) : WithBot (WithTop ℚ)) := by
  apply level_lt_coe
  have hpos := two_zpow_pos e
  simp only [Sign.apply, Int.cast_neg, Int.cast_natCast, neg_mul, neg_neg_iff_pos]
  positivity

private theorem compare_lt {k l : WithBot (WithTop ℚ)} (h : k < l) :
    some Ordering.lt = some (compare k l) :=
  congrArg some (compare_lt_iff_lt.2 h).symm

private theorem compare_gt {k l : WithBot (WithTop ℚ)} (h : l < k) :
    some Ordering.gt = some (compare k l) :=
  congrArg some (compare_gt_iff_gt.2 h).symm

private theorem coe_lt_top (q : ℚ) : ((q : WithTop ℚ) : WithBot (WithTop ℚ)) < ⊤ := by
  exact WithBot.coe_lt_coe.2 (WithTop.coe_lt_top q)

private theorem bot_lt_coe (q : ℚ) : ⊥ < ((q : WithTop ℚ) : WithBot (WithTop ℚ)) :=
  WithBot.bot_lt_coe _

private theorem compare_levelOf : ∀ {u v : UnpackedFloat}, u ≠ .notANumber → v ≠ .notANumber →
    (∀ s m e hm, u = .finite s m e hm → Canonical m e) →
    (∀ s m e hm, v = .finite s m e hm → Canonical m e) →
    u.compare v = some (compare (levelOf u) (levelOf v))
  | .notANumber, _, hu, _, _, _ => absurd rfl hu
  | _, .notANumber, _, hv, _, _ => absurd rfl hv
  | .infinity .positive, .infinity .positive, _, _, _, _ => by
      rw [compare_eq_iff_eq.2 rfl]
      rfl
  | .infinity .positive, .infinity .negative, _, _, _, _ => compare_gt bot_lt_top
  | .infinity .negative, .infinity .positive, _, _, _, _ => compare_lt bot_lt_top
  | .infinity .negative, .infinity .negative, _, _, _, _ => by
      rw [compare_eq_iff_eq.2 rfl]
      rfl
  | .infinity .positive, .zero _, _, _, _, _ => compare_gt (coe_lt_top _)
  | .infinity .positive, .finite .., _, _, _, _ => compare_gt (coe_lt_top _)
  | .infinity .negative, .zero _, _, _, _, _ => compare_lt (bot_lt_coe _)
  | .infinity .negative, .finite .., _, _, _, _ => compare_lt (bot_lt_coe _)
  | .zero _, .infinity .positive, _, _, _, _ => compare_lt (coe_lt_top _)
  | .finite .., .infinity .positive, _, _, _, _ => compare_lt (coe_lt_top _)
  | .zero _, .infinity .negative, _, _, _, _ => compare_gt (bot_lt_coe _)
  | .finite .., .infinity .negative, _, _, _, _ => compare_gt (bot_lt_coe _)
  | .zero _, .zero _, _, _, _, _ => by simp [UnpackedFloat.compare, levelOf]
  | .zero _, .finite .positive _ _ hm, _, _, _, _ => compare_lt (levelOf_pos hm)
  | .zero _, .finite .negative _ _ hm, _, _, _, _ => compare_gt (levelOf_neg hm)
  | .finite .positive _ _ hm, .zero _, _, _, _, _ => compare_gt (levelOf_pos hm)
  | .finite .negative _ _ hm, .zero _, _, _, _, _ => compare_lt (levelOf_neg hm)
  | .finite .positive _ _ hm, .finite .negative _ _ hn, _, _, _, _ =>
      compare_gt ((levelOf_neg hn).trans (levelOf_pos hm))
  | .finite .negative _ _ hm, .finite .positive _ _ hn, _, _, _, _ =>
      compare_lt ((levelOf_neg hm).trans (levelOf_pos hn))
  | .finite .positive _ _ _, .finite .positive _ _ _, _, _, hu, hv => by
      simp only [UnpackedFloat.compare, levelOf, compare_coe,
        compare_magnitudes (hu _ _ _ _ rfl) (hv _ _ _ _ rfl), Sign.apply, Int.cast_natCast]
  | .finite .negative _ _ _, .finite .negative _ _ _, _, _, hu, hv => by
      simp only [UnpackedFloat.compare, levelOf, compare_coe,
        compare_magnitudes (hu _ _ _ _ rfl) (hv _ _ _ _ rfl), Sign.apply, Int.cast_neg,
        Int.cast_natCast, neg_mul, compare_neg]

theorem compare_unpack {a b : Float} (ha : ¬ IsNaN a) (hb : ¬ IsNaN b) :
    a.toModel.unpack.compare b.toModel.unpack = some (compare (level a) (level b)) :=
  compare_levelOf ha hb (fun _ _ _ _ h => (canonical_of_unpack h).1)
    (fun _ _ _ _ h => (canonical_of_unpack h).1)

theorem lt_iff_level {a b : Float} (ha : ¬ IsNaN a) (hb : ¬ IsNaN b) :
    a < b ↔ level a < level b := by
  change (decide (a.toModel.unpack.compare b.toModel.unpack == some .lt) = true) ↔ _
  rw [compare_unpack ha hb, decide_eq_true_iff, beq_iff_eq, Option.some_inj]
  exact compare_lt_iff_lt

theorem le_iff_level {a b : Float} (ha : ¬ IsNaN a) (hb : ¬ IsNaN b) :
    a ≤ b ↔ level a ≤ level b := by
  change (decide ((a.toModel.unpack.compare b.toModel.unpack).any (·.isLE) = true) = true) ↔ _
  rw [compare_unpack ha hb, decide_eq_true_iff]
  exact Ordering.isLE_iff_ne_gt.trans compare_le_iff_le

theorem beq_iff_level {a b : Float} (ha : ¬ IsNaN a) (hb : ¬ IsNaN b) :
    (a == b) = true ↔ level a = level b := by
  change (a.toModel.unpack.compare b.toModel.unpack == some .eq) = true ↔ _
  rw [compare_unpack ha hb, beq_iff_eq, Option.some_inj]
  exact compare_eq_iff_eq

theorem IsValue.lt_iff {a b : Float} {x y : ℚ} (ha : IsValue a x) (hb : IsValue b y) :
    a < b ↔ x < y := by
  rw [lt_iff_level ha.not_isNaN hb.not_isNaN, ha.level_eq, hb.level_eq]
  exact WithBot.coe_lt_coe.trans WithTop.coe_lt_coe

theorem IsValue.le_iff {a b : Float} {x y : ℚ} (ha : IsValue a x) (hb : IsValue b y) :
    a ≤ b ↔ x ≤ y := by
  rw [le_iff_level ha.not_isNaN hb.not_isNaN, ha.level_eq, hb.level_eq]
  exact WithBot.coe_le_coe.trans WithTop.coe_le_coe

theorem IsValue.beq_iff {a b : Float} {x y : ℚ} (ha : IsValue a x) (hb : IsValue b y) :
    (a == b) = true ↔ x = y := by
  rw [beq_iff_level ha.not_isNaN hb.not_isNaN, ha.level_eq, hb.level_eq]
  exact WithBot.coe_inj.trans WithTop.coe_inj

/-! ## Not a number -/

private theorem compare_notANumber (u : UnpackedFloat) : u.compare .notANumber = none := by
  cases u with
  | infinity s => cases s <;> rfl
  | finite s m e hm => cases s <;> rfl
  | zero s => rfl
  | notANumber => rfl

private theorem notANumber_compare (u : UnpackedFloat) :
    UnpackedFloat.compare .notANumber u = none := by
  cases u <;> rfl

theorem not_isNaN_of_le {a b : Float} (h : a ≤ b) : ¬ IsNaN a ∧ ¬ IsNaN b := by
  change (decide ((a.toModel.unpack.compare b.toModel.unpack).any (·.isLE) = true) = true) at h
  constructor
  · intro hnan
    rw [hnan, notANumber_compare] at h
    exact absurd h (by decide)
  · intro hnan
    rw [hnan, compare_notANumber] at h
    exact absurd h (by decide)

theorem not_isNaN_of_lt {a b : Float} (h : a < b) : ¬ IsNaN a ∧ ¬ IsNaN b := by
  change (decide (a.toModel.unpack.compare b.toModel.unpack == some .lt) = true) at h
  constructor
  · intro hnan
    rw [hnan, notANumber_compare] at h
    exact absurd h (by decide)
  · intro hnan
    rw [hnan, compare_notANumber] at h
    exact absurd h (by decide)

theorem exists_isValue_of_between {a b c : Float} {x y : ℚ} (ha : IsValue a x) (hb : IsValue b y)
    (hlo : a ≤ c) (hhi : c ≤ b) : ∃ z, IsValue c z ∧ x ≤ z ∧ z ≤ y := by
  have hnan := (not_isNaN_of_le hlo).2
  have hlevel := (le_iff_level ha.not_isNaN hnan).1 hlo
  have hlevel' := (le_iff_level hnan hb.not_isNaN).1 hhi
  rw [ha.level_eq] at hlevel
  rw [hb.level_eq] at hlevel'
  have hfinite : c.isFinite = true := by
    change c.toModel.unpack.isFinite = true
    unfold level at hlevel hlevel'
    cases hu : c.toModel.unpack with
    | zero s => rfl
    | finite s m e hm => rfl
    | notANumber => exact absurd hu hnan
    | infinity s =>
        rw [hu] at hlevel hlevel'
        cases s with
        | positive => exact absurd hlevel' (not_le.2 (coe_lt_top y))
        | negative => exact absurd hlevel (not_le.2 (bot_lt_coe x))
  obtain ⟨z, hz⟩ := isFinite_iff.1 hfinite
  exact ⟨z, hz, (ha.le_iff hz).1 hlo, (hz.le_iff hb).1 hhi⟩

end FuzzyInference.Binary
