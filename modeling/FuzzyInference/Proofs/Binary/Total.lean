import FuzzyInference.Proofs.Logic.Closure

/-!
# Sums of numbers of the unit interval

However many numbers of the unit interval are added up, their rounded sum stays
finite, because from 2^53 on a summand of at most 1 is lost.  The sum is no less
than any of the summands, and half of it no greater than all of it.
-/

namespace FuzzyInference.Binary

variable {start x : Float} {xs : List Float} {q t u : ℚ}

theorem IsValue.add_inUnit (hq : IsValue start q) (hq0 : 0 ≤ q) (hlarge : q ≤ 2 ^ 53)
    (hx : InUnit x u) : IsValue (start + x) (rounded (q + u)) ∧ q ≤ rounded (q + u) ∧
      u ≤ rounded (q + u) ∧ rounded (q + u) ≤ 2 ^ 53 := by
  have hu0 := hx.nonneg
  have hu1 := hx.le_one
  have hrange : |q + u| ≤ 2 ^ (54 : ℤ) := by
    rw [abs_of_nonneg (add_nonneg hq0 hu0)]
    norm_num
    linarith
  have hfinite : (2 : ℚ) ^ (54 : ℤ) < 2 ^ (1024 : ℤ) := zpow_lt_zpow_right₀ one_lt_two (by norm_num)
  exact ⟨hq.add hx.isValue (inRange_of_abs_le (isDouble_two_zpow (by norm_num)) hfinite hrange),
    le_rounded hq.isDouble (by linarith), le_rounded hx.isValue.isDouble (by linarith),
    rounded_le_two_zpow (k := 53) (by norm_num) (by norm_num; linarith)⟩

/-- Both zeros are the same start of a sum. -/
theorem exists_total (hxs : ∀ x ∈ xs, ∃ u, InUnit x u) (hq : IsValue start q) (hq0 : 0 ≤ q)
    (hlarge : q ≤ 2 ^ 53) :
    ∃ t, (∀ start, IsValue start q → IsValue (xs.foldl (· + ·) start) t) ∧ q ≤ t ∧ t ≤ 2 ^ 53 ∧
      ∀ x ∈ xs, ∀ u, IsValue x u → u ≤ t := by
  induction xs generalizing start q with
  | nil => exact ⟨q, fun _ h => h, le_rfl, hlarge, nofun⟩
  | cons x xs ih =>
      obtain ⟨⟨u, hu⟩, hrest⟩ := List.forall_mem_cons.1 hxs
      obtain ⟨hsum, hqsum, husum, hsumle⟩ := hq.add_inUnit hq0 hlarge hu
      obtain ⟨t, hfold, hle, htle, hall⟩ := ih hrest hsum (hq0.trans hqsum) hsumle
      refine ⟨t, fun start hstart => hfold _ (hstart.add_inUnit hq0 hlarge hu).1, hqsum.trans hle,
        htle, List.forall_mem_cons.2 ⟨fun v hv => ?_, hall⟩⟩
      have hvu : v ≤ u := (hv.le_iff hu.isValue).1 ((hu.isValue.le_iff hu.isValue).2 le_rfl)
      exact hvu.trans (husum.trans hle)

theorem foldl_add_pos (hxs : ∀ x ∈ xs, ∃ u, InUnit x u) (hpos : ∃ x ∈ xs, ¬ (x == 0) = true) :
    0 < xs.foldl (· + ·) 0 := by
  obtain ⟨t, hfold, -, -, hle⟩ := exists_total hxs isValue_zero le_rfl (by norm_num)
  obtain ⟨x, hx, hne⟩ := hpos
  obtain ⟨u, hu⟩ := hxs x hx
  rw [hu.isValue.beq_iff isValue_zero] at hne
  have hpos := (hu.nonneg.lt_of_ne' hne).trans_le (hle x hx u hu.isValue)
  exact (isValue_zero.lt_iff (hfold 0 isValue_zero)).2 hpos

theorem isValue_neg_zero : IsValue (-0) 0 := by
  rfl

theorem IsValue.half (ht : IsValue x t) (ht0 : 0 ≤ t) : ∃ h, IsValue (x / Scalar.two) h ∧ h ≤ t := by
  have hhalf : |t / 2| ≤ t := by
    rw [abs_of_nonneg (by linarith)]
    linarith
  refine ⟨_, ht.div isValue_two two_ne_zero (inRange_of_abs_le ht.isDouble ?_ hhalf), ?_⟩
  · exact (le_abs_self t).trans_lt ht.abs_lt
  · exact rounded_le ht.isDouble (by linarith)

end FuzzyInference.Binary
