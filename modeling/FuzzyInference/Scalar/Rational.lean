import FuzzyInference.Scalar

/-!
# Exact rational numbers

The numbers in which the algebra of a fuzzy system is free of rounding.
-/

namespace FuzzyInference

instance : Scalar Rat where
  zero := ⟨0⟩
  one := ⟨1⟩
  neg := inferInstance
  add := inferInstance
  sub := inferInstance
  mul := inferInstance
  div := inferInstance
  lt := inferInstance
  le := inferInstance
  beq := inferInstance
  decidableLT := inferInstance
  decidableLE := inferInstance
  ofNat n := n
  isFinite _ := true
  isNegative x := x < 0
  tolerance := 1e-12
  zero_le_zero := by decide
  zero_le_one := by decide
  one_le_one := by decide

end FuzzyInference
