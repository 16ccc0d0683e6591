import FuzzyInference.Proofs.Rational.Order

/-!
# Degrees in exact arithmetic

Where nothing is rounded an operation on degrees is the operation on their
values: a product or a complement needs no pinning, and a number of the unit
interval passes every check as it is.
-/

namespace FuzzyInference.Rational

variable {a b : Degree ℚ} {q : ℚ}

instance : LawfulBEq (Degree ℚ) where
  eq_of_beq {a b} h := Degree.ext (show a.value = b.value from eq_of_beq h)
  rfl {a} := show (a.value == a.value) = true from beq_self_eq_true _

theorem value_min (a b : Degree ℚ) : (min a b).value = min a.value b.value :=
  ranks.rank_min a b

theorem value_max (a b : Degree ℚ) : (max a b).value = max a.value b.value :=
  ranks.rank_max a b

theorem value_mul (a b : Degree ℚ) : (a * b).value = a.value * b.value :=
  Degree.value_nearest ⟨mul_nonneg a.nonneg b.nonneg, mul_le_one₀ a.le_one b.nonneg b.le_one⟩

theorem mul_one (a : Degree ℚ) : a * 1 = a :=
  Degree.ext ((value_mul a 1).trans (Rat.mul_one a.value))

theorem mul_mono {a a' b b' : Degree ℚ} (ha : a ≤ a') (hb : b ≤ b') : a * b ≤ a' * b' := by
  change (a * b).value ≤ (a' * b').value
  rw [value_mul, value_mul]
  exact mul_le_mul_of_nonneg ha hb a.nonneg b'.nonneg

theorem value_complement (a : Degree ℚ) : a.complement.value = 1 - a.value :=
  Degree.value_nearest ⟨sub_nonneg.2 a.le_one, sub_le_self 1 a.nonneg⟩

theorem complement_complement (a : Degree ℚ) : a.complement.complement = a := by
  apply Degree.ext
  rw [value_complement, value_complement, sub_sub_cancel]

theorem complement_le_complement (h : a ≤ b) : b.complement ≤ a.complement := by
  change b.complement.value ≤ a.complement.value
  rw [value_complement, value_complement]
  exact sub_le_sub_left (show a.value ≤ b.value from h) 1

theorem isOne_iff : a.isOne = true ↔ a.value = 1 := beq_iff_eq

theorem isZero_iff : a.isZero = true ↔ a.value = 0 := beq_iff_eq

theorem ofRounded_eq (h : 0 ≤ q ∧ q ≤ 1) : Degree.ofRounded q = .ok ⟨q, h.1, h.2⟩ := by
  have hfinite : Scalar.isFinite q = true := rfl
  have hbelow : ¬ (-Scalar.tolerance ≤ q ∧ q < 0) := fun hneg => hneg.2.not_ge h.1
  have habove : ¬ (1 < q ∧ q ≤ 1 + Scalar.tolerance) := fun hover => hover.1.not_ge h.2
  rw [Degree.ofRounded, if_pos hfinite, if_neg hbelow, if_neg habove, Degree.ofScalar,
    if_pos hfinite, dif_pos h]

end FuzzyInference.Rational
