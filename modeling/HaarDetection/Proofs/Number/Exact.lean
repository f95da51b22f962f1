import HaarDetection.Number.Scalar
import HaarDetection.Proofs.Number.Single

/-!
# Exact scalars

The evaluation of a cascade is written for any type of scalars. Here these are the real numbers: no
sum, product or quotient is rounded, and a single stands for its exact value.

* The instance of `Scalar` for the real numbers.
* `Scalar.sum_real`: a sum from the left is the sum of the list.
-/

namespace HaarDetection

/-- The integer nearest to a real number, halves away from zero. -/
noncomputable def nearestInt (x : ℝ) : ℤ := if 0 ≤ x then ⌊x + 1 / 2⌋ else -⌊-x + 1 / 2⌋

theorem nearestInt_of_nonneg {x : ℝ} (h : 0 ≤ x) : nearestInt x = ⌊x + 1 / 2⌋ := if_pos h

/-- **The real numbers as scalars.** -/
noncomputable instance : Scalar ℝ where
  ofInt z := z
  ofSingle x := singleValue x
  lt a b := decide (a < b)
  le a b := decide (a ≤ b)
  sqrt := Real.sqrt
  isFinite _ := true
  isUndefined _ := false
  nearestWithin lo hi x := clamp lo hi (nearestInt x)

namespace Scalar

@[simp]
theorem ofInt_real (z : ℤ) : (ofInt z : ℝ) = z := rfl

@[simp]
theorem ofNat_real (n : ℕ) : (ofNat n : ℝ) = n := Int.cast_natCast n

@[simp]
theorem zero_real : (zero : ℝ) = 0 := Int.cast_zero

/-- **A sum from the left** is the sum of the list. -/
theorem sum_real (xs : List ℝ) : sum xs = xs.sum := by
  unfold sum
  rw [zero_real]
  exact List.sum_eq_foldl.symm

end Scalar

end HaarDetection
