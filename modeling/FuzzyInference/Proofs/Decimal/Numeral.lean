import FuzzyInference.Decimal.Numeral
import FuzzyInference.Proofs.Decimal.Shortest

/-!
# Numerals read back

The numeral of a finite number in double precision, read as a decimal, is rounded
to that number, so numbers with the same numeral are equal.
-/

namespace FuzzyInference

/-! ## Positional notation -/

namespace Decimal

/-- The number that digits stand for, of which those after a point are decimal
places. -/
def readDigits (text : List Char) : ℚ :=
  let places := (text.dropWhile (· ≠ '.')).tail
  Nat.ofDigitChars 10 (text.takeWhile (· ≠ '.') ++ places) 0 / 10 ^ places.length

theorem readDigits_whole {digits : List Char} (h : ∀ c ∈ digits, c ≠ '.') :
    readDigits digits = Nat.ofDigitChars 10 digits 0 := by
  have htake : digits.takeWhile (· ≠ '.') = digits := List.takeWhile_eq_self_iff.2 (by simpa)
  have hdrop : digits.dropWhile (· ≠ '.') = [] := List.dropWhile_eq_nil_iff.2 (by simpa)
  rw [readDigits, htake, hdrop]
  simp

theorem readDigits_point {whole : List Char} (h : ∀ c ∈ whole, c ≠ '.') (places : List Char) :
    readDigits (whole ++ '.' :: places) =
      Nat.ofDigitChars 10 (whole ++ places) 0 / 10 ^ places.length := by
  have htake : (whole ++ '.' :: places).takeWhile (· ≠ '.') = whole := by
    rw [List.takeWhile_append_of_pos (by simpa)]
    simp
  have hdrop : (whole ++ '.' :: places).dropWhile (· ≠ '.') = '.' :: places := by
    rw [List.dropWhile_append_of_pos (by simpa)]
    simp
  rw [readDigits, htake, hdrop]
  rfl

private theorem ofDigitChars_zeros (n : ℕ) (digits : List Char) :
    Nat.ofDigitChars 10 (List.replicate n '0' ++ digits) 0 = Nat.ofDigitChars 10 digits 0 := by
  rw [Nat.ofDigitChars_append, Nat.ofDigitChars_replicate_zero, mul_zero]

theorem value_eq_div (d : Decimal) {places : ℕ} (h : d.exponent = -places) :
    d.value = d.digits / 10 ^ places := by
  rw [value, h, zpow_neg, zpow_natCast, div_eq_mul_inv]

theorem readDigits_positional (d : Decimal) : readDigits d.positional.toList = d.value := by
  have hvalue : Nat.ofDigitChars 10 (Nat.toDigits 10 d.digits) 0 = d.digits :=
    Nat.ofDigitChars_ten_toDigits
  have hdigits : ∀ c ∈ Nat.toDigits 10 d.digits, c ≠ '.' := by
    rintro c hc rfl
    exact absurd (Nat.isDigit_of_mem_toDigits (by norm_num) le_rfl hc) (by decide)
  simp only [positional, String.toList_ofList]
  generalize Nat.toDigits 10 d.digits = digits at hvalue hdigits
  split
  · next hplaces =>
      obtain ⟨n, hexp⟩ := Int.eq_ofNat_of_zero_le (by omega : 0 ≤ d.exponent)
      have hwhole : ∀ c ∈ digits ++ List.replicate n '0', c ≠ '.' := by
        refine List.forall_mem_append.2 ⟨hdigits, fun c hc => ?_⟩
        rw [List.eq_of_mem_replicate hc]
        decide
      rw [hexp, Int.toNat_natCast, readDigits_whole hwhole, Nat.ofDigitChars_append, hvalue,
        Nat.ofDigitChars_replicate_zero, value, hexp, zpow_natCast]
      push_cast
      exact mul_comm _ _
  · next hplaces =>
      obtain ⟨n, hexp⟩ := Int.eq_ofNat_of_zero_le (by omega : 0 ≤ -d.exponent)
      rw [hexp, Int.toNat_natCast, d.value_eq_div (neg_eq_iff_eq_neg.1 hexp)]
      split
      · next hshort =>
          have hzeros := ofDigitChars_zeros (n - digits.length + 1) digits
          rw [List.replicate_succ, ← List.singleton_append, List.append_assoc, hvalue] at hzeros
          have hwhole : ∀ c ∈ ['0'], c ≠ '.' := List.forall_mem_singleton.2 (by decide)
          have hread := readDigits_point hwhole (List.replicate (n - digits.length) '0' ++ digits)
          rw [List.length_append, List.length_replicate, Nat.sub_add_cancel hshort, hzeros] at hread
          exact hread
      · next hlong =>
          have hwhole : ∀ c ∈ digits.take (digits.length - n), c ≠ '.' :=
            fun c hc => hdigits c (List.mem_of_mem_take hc)
          rw [readDigits_point hwhole, List.take_append_drop, List.length_drop, hvalue]
          congr 2
          omega

theorem isDigit_or_point (d : Decimal) :
    ∀ c ∈ d.positional.toList, c.isDigit = true ∨ c = '.' := by
  have hdigits : ∀ c ∈ Nat.toDigits 10 d.digits, c.isDigit = true ∨ c = '.' :=
    fun c hc => .inl (Nat.isDigit_of_mem_toDigits (by norm_num) le_rfl hc)
  have hzeros (n : ℕ) : ∀ c ∈ List.replicate n '0', c.isDigit = true ∨ c = '.' := by
    intro c hc
    rw [List.eq_of_mem_replicate hc]
    decide
  simp only [positional, String.toList_ofList]
  split
  · exact List.forall_mem_append.2 ⟨hdigits, hzeros _⟩
  · split
    · refine List.forall_mem_append.2 ⟨?_, hdigits⟩
      exact List.forall_mem_cons.2 ⟨by decide, List.forall_mem_cons.2 ⟨by decide, hzeros _⟩⟩
    · refine List.forall_mem_append.2 ⟨fun c hc => hdigits c (List.mem_of_mem_take hc), ?_⟩
      exact List.forall_mem_cons.2 ⟨by decide, fun c hc => hdigits c (List.mem_of_mem_drop hc)⟩

end Decimal

def Numeral.read (text : String) : ℚ :=
  if text.toList.head? = some '-' then -Decimal.readDigits text.toList.tail
  else Decimal.readDigits text.toList

/-! ## The fields of a number -/

namespace BitFields

def value (f : BitFields) : ℚ := (if f.negative then -1 else 1) * f.magnitude.value

/-- The exponent is not the one of infinities and of not-a-number, and both fields
are in range. -/
structure Finite (f : BitFields) : Prop where
  biased_lt : f.biased < 2047
  fraction_lt : f.fraction < 2 ^ 52

theorem stored_magnitude {f : BitFields} (hf : f.Finite)
    (hne : ¬ (f.biased = 0 ∧ f.fraction = 0)) : f.magnitude.Stored := by
  have hbiased := hf.biased_lt
  have hfraction := hf.fraction_lt
  unfold magnitude
  refine ⟨⟨?_, ?_, ?_⟩, ?_, ?_⟩ <;> dsimp only
  · split <;> omega
  · omega
  · split
    · exact .inr (by omega)
    · exact .inl (by omega)
  · split <;> omega
  · rw [Bool.and_eq_true, beq_iff_eq, decide_eq_true_eq]
    split <;> omega

theorem value_magnitude_of_zero {f : BitFields} (h : f.biased = 0) :
    f.magnitude.value = f.fraction * 2 ^ (-1074 : ℤ) := by
  simp [magnitude, BinaryNumber.value, h]

theorem value_magnitude_of_ne_zero {f : BitFields} (h : f.biased ≠ 0) :
    f.magnitude.value = (2 ^ 52 + f.fraction : ℕ) * 2 ^ ((f.biased : ℤ) - 1075) := by
  have hmax : max f.biased 1 = f.biased := max_eq_left (Nat.one_le_iff_ne_zero.2 h)
  simp [magnitude, BinaryNumber.value, h, hmax]

theorem exists_decimal {f : BitFields} (hf : f.Finite) : ∃ d : Decimal,
    f.text = (if f.negative then "-" else "") ++ d.positional ∧
      Binary.rounded d.value = f.magnitude.value := by
  unfold text
  simp only [if_neg hf.biased_lt.ne, Bool.and_eq_true, decide_eq_true_eq]
  split
  · next hzero =>
      refine ⟨⟨0, 0⟩, rfl, ?_⟩
      rw [value_magnitude_of_zero hzero.1, hzero.2, Decimal.value, Nat.cast_zero, zero_mul, zero_mul,
        Binary.rounded_zero]
  · next hne => exact ⟨f.magnitude.shortest, rfl, (stored_magnitude hf hne).rounded_shortest⟩

private theorem read_signed (negative : Bool) (d : Decimal) :
    Numeral.read ((if negative then "-" else "") ++ d.positional) =
      (if negative then -1 else 1) * d.value := by
  rw [← d.readDigits_positional]
  cases negative with
  | true =>
      have hminus : ("-" ++ d.positional).toList = '-' :: d.positional.toList := String.toList_append
      simp only [↓reduceIte, Numeral.read, hminus, List.head?_cons, List.tail_cons, neg_one_mul]
  | false =>
      have hdigits : d.positional.toList.head? ≠ some '-' := fun hhead =>
        absurd (d.isDigit_or_point '-' (List.mem_of_head? hhead)) (by decide)
      simp only [Bool.false_eq_true, ↓reduceIte, String.empty_append, Numeral.read, hdigits, one_mul]

theorem rounded_read_text {f : BitFields} (hf : f.Finite) :
    Binary.rounded (Numeral.read f.text) = f.value := by
  obtain ⟨d, htext, hrounded⟩ := exists_decimal hf
  rw [htext, read_signed, value, ← hrounded]
  cases f.negative <;> simp

theorem isDigit_or_mark {f : BitFields} (hf : f.Finite) :
    ∀ c ∈ f.text.toList, c.isDigit = true ∨ c = '.' ∨ c = '-' := by
  obtain ⟨d, htext, -⟩ := exists_decimal hf
  rw [htext, String.toList_append, List.forall_mem_append]
  refine ⟨?_, fun c hc => (d.isDigit_or_point c hc).imp_right .inl⟩
  cases f.negative with
  | true => exact List.forall_mem_singleton.2 (by decide)
  | false => exact List.forall_mem_nil _

section Unpacking

open Float.Model Float.Model.UnpackedFloat

variable (x : Float)

private theorem biased_ofFloat : (ofFloat x).biased =
    (@unpackExponent Format.binary64 x.toModel.toBits.toBitVec).toNat := by
  simp only [unpackExponent, BitVec.toNat_cast, BitVec.extractLsb_toNat]
  rfl

private theorem fraction_ofFloat : (ofFloat x).fraction =
    (@unpackMantissa Format.binary64 x.toModel.toBits.toBitVec).toNat := by
  simp only [unpackMantissa, BitVec.toNat_cast, BitVec.extractLsb_toNat]
  rfl

private theorem negative_ofFloat : (ofFloat x).negative =
    decide (@unpackSign Format.binary64 x.toModel.toBits.toBitVec ≠ 0#1) := by
  have hsign : (@unpackSign Format.binary64 x.toModel.toBits.toBitVec).toNat =
      x.toModel.toBits.toNat >>> 63 % 2 := by
    simp only [unpackSign, BitVec.toNat_cast, BitVec.extractLsb_toNat]
    rfl
  have hlt : x.toModel.toBits.toNat >>> 63 < 2 := by
    have hbits := x.toModel.toBits.toNat_lt
    rw [Nat.shiftRight_eq_div_pow]
    omega
  change (x.toModel.toBits.toNat >>> 63 == 1) = _
  rw [Nat.mod_eq_of_lt hlt] at hsign
  rw [Bool.eq_iff_iff, beq_iff_eq, decide_eq_true_eq, ne_eq, ← BitVec.toNat_inj, hsign]
  change _ ↔ ¬ _ = 0
  omega

private theorem apply_ofBitVec (v : BitVec 1) (m : ℕ) :
    (((Sign.ofBitVec v).apply m : ℤ) : ℚ) = (if decide (v ≠ 0#1) = true then -1 else 1) * m := by
  by_cases hv : v = 0#1
  · simp [Sign.ofBitVec, hv, Sign.apply]
  · simp [Sign.ofBitVec, hv, Sign.apply]

/-- The fields of a finite number stand for the number. -/
theorem finite_ofFloat {x : Float} {q : ℚ} (h : Binary.IsValue x q) :
    (ofFloat x).Finite ∧ (ofFloat x).value = q := by
  have hbiased := biased_ofFloat x
  have hfraction := fraction_ofFloat x
  have hnegative := negative_ofFloat x
  change Binary.Encodes (unpack Format.binary64 x.toModel.toBits.toBitVec) q at h
  generalize x.toModel.toBits.toBitVec = bits at h hbiased hfraction hnegative
  generalize ofFloat x = f at hbiased hfraction hnegative
  have hbias : (Format.binary64.exponentBias : ℤ) = 1023 := by decide
  have hplaces : (Format.binary64.mantissaBitsWithoutImplicit : ℤ) = 52 := by decide
  have hexp : (@unpackExponent Format.binary64 bits).toNat < 2 ^ 11 := BitVec.isLt _
  have hmant : (@unpackMantissa Format.binary64 bits).toNat < 2 ^ 52 := BitVec.isLt _
  rw [← hbiased] at hexp
  rw [← hfraction] at hmant
  simp only [UnpackedFloat.unpack] at h
  split at h
  · split at h <;> exact h.elim
  · next htop =>
    have htop' : f.biased ≠ 2047 := fun heq =>
      htop (BitVec.eq_of_toNat_eq (hbiased.symm.trans heq))
    refine ⟨⟨by omega, hmant⟩, ?_⟩
    split at h
    · next hzero =>
      have hzero' : f.biased = 0 := hbiased.trans (congrArg BitVec.toNat hzero)
      split at h
      · next hnone =>
        have hnone' : f.fraction = 0 := hfraction.trans (congrArg BitVec.toNat hnone)
        obtain rfl : q = 0 := h
        rw [value, value_magnitude_of_zero hzero', hnone', Nat.cast_zero, zero_mul, mul_zero]
      · obtain ⟨-, rfl⟩ := h
        rw [value, value_magnitude_of_zero hzero', apply_ofBitVec, hnegative, ← hfraction,
          ← hbiased, hzero', hbias, hplaces, mul_assoc]
        norm_num
    · next hzero =>
      have hzero' : f.biased ≠ 0 := fun heq =>
        hzero (BitVec.eq_of_toNat_eq (hbiased.symm.trans heq))
      obtain ⟨-, rfl⟩ := h
      have hmantissa := Binary.toNat_leading_append (@unpackMantissa Format.binary64 bits)
      rw [value, value_magnitude_of_ne_zero hzero', apply_ofBitVec, hnegative, ← hbiased, hmantissa,
        ← hfraction, hbias, hplaces, mul_assoc]
      norm_num

end Unpacking

end BitFields

/-! ## Numerals of finite numbers -/

namespace Numeral

variable {x y : Float} {q r : ℚ}

theorem rounded_read (h : Binary.IsValue x q) : Binary.rounded (read (text x)) = q := by
  obtain ⟨hfinite, hvalue⟩ := BitFields.finite_ofFloat h
  rw [← hvalue]
  exact BitFields.rounded_read_text hfinite

/-- Numbers with the same numeral are equal. -/
theorem eq_of_text_eq (hx : Binary.IsValue x q) (hy : Binary.IsValue y r)
    (h : text x = text y) : q = r := by
  rw [← rounded_read hx, h, rounded_read hy]

theorem isDigit_or_mark (h : Binary.IsValue x q) :
    ∀ c ∈ (text x).toList, c.isDigit = true ∨ c = '.' ∨ c = '-' :=
  BitFields.isDigit_or_mark (BitFields.finite_ofFloat h).1

end Numeral

end FuzzyInference
