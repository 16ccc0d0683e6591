import FuzzyInference.Scalar

/-!
# Binary floating-point numbers

Double-precision numbers with each operation rounded to nearest, the numbers
that a fuzzy system runs on.
-/

namespace FuzzyInference

instance : Scalar Float where
  zero := ⟨0⟩
  one := ⟨1⟩
  neg := inferInstance
  add := inferInstance
  sub := inferInstance
  mul := inferInstance
  div := inferInstance
  lt := inferInstance
  le := inferInstance
  beq := inferInstance
  decidableLT := inferInstance
  decidableLE := inferInstance
  ofNat := Float.ofNat
  isFinite := Float.isFinite
  isNegative x := x.toBits >>> 63 == 1
  tolerance := 1e-12
  zero_le_zero := by decide +kernel
  zero_le_one := by decide +kernel
  one_le_one := by decide +kernel

end FuzzyInference
