import HaarDetection.Number.Scalar
import HaarDetection.Proofs.Number.Single

/-!
# Results that are not too large

A result is finite if there is a single that the exact result does not exceed. Like every other result
it is on the same side of each single as the exact one.

* `mul_single_of_le`, `add_single_of_le`, `div_single`: **a product, sum or quotient that is not too
  large** is nearest to the exact one.
* `div_self_single`: a number over itself is one.
* `singleOfNat_spec`: natural numbers below `2 ^ 64` are rounded.
-/

namespace HaarDetection

open Float.Model (UnpackedFloat)

variable {x y : Float32} {b : ℚ}

/-- **A product of singles**, if there is a single that is not below it. -/
theorem mul_single_of_le (hx : FiniteSingle x) (hy : FiniteSingle y) (hx0 : 0 ≤ singleValue x)
    (hy0 : 0 ≤ singleValue y) (hb : OnGrid .binary32 b) (hlt : b < 2 ^ 128)
    (hle : singleValue x * singleValue y ≤ b) :
    FiniteSingle (x * y) ∧
      Nearest .binary32 (singleValue x * singleValue y) (singleValue (x * y)) := by
  have hr := mul_spec hx hy
  obtain ⟨heq, -⟩ := hr.between (by decide) hb hlt (mul_nonneg hx0 hy0) hle
  have hu : (x * y).toModel.unpack = UnpackedFloat.mul .binary32 x.toModel.unpack y.toModel.unpack :=
    heq
  rw [FiniteSingle, singleValue.eq_def (x * y), hu]
  exact hr

/-- **A sum of singles**, if there is a single that is not below it. -/
theorem add_single_of_le (hx : FiniteSingle x) (hy : FiniteSingle y) (hx0 : 0 ≤ singleValue x)
    (hy0 : 0 ≤ singleValue y) (hb : OnGrid .binary32 b) (hlt : b < 2 ^ 128)
    (hle : singleValue x + singleValue y ≤ b) :
    FiniteSingle (x + y) ∧
      Nearest .binary32 (singleValue x + singleValue y) (singleValue (x + y)) := by
  have hr := add_spec hx hy
  obtain ⟨heq, -⟩ := hr.between (by decide) hb hlt (add_nonneg hx0 hy0) hle
  have hu : (x + y).toModel.unpack = UnpackedFloat.add .binary32 x.toModel.unpack y.toModel.unpack :=
    heq
  rw [FiniteSingle, singleValue.eq_def (x + y), hu]
  exact hr

/-- **A quotient of singles**, if there is a single that is not below it. -/
theorem div_single (hx : FiniteSingle x) (hy : FiniteSingle y) (hx0 : 0 ≤ singleValue x)
    (hy0 : 0 < singleValue y) (hb : OnGrid .binary32 b) (hlt : b < 2 ^ 128)
    (hle : singleValue x / singleValue y ≤ b) :
    FiniteSingle (x / y) ∧
      Nearest .binary32 (singleValue x / singleValue y) (singleValue (x / y)) := by
  have hr := div_spec hx hy hy0.ne'
  obtain ⟨heq, -⟩ := hr.between (by decide) hb hlt (div_nonneg hx0 hy0.le) hle
  have hu : (x / y).toModel.unpack = UnpackedFloat.div .binary32 x.toModel.unpack y.toModel.unpack :=
    heq
  rw [FiniteSingle, singleValue.eq_def (x / y), hu]
  exact hr

/-- **A number over itself** is one. -/
theorem div_self_single (hx : FiniteSingle x) (h0 : 0 < singleValue x) : x / x = 1 := by
  have hone : singleValue x / singleValue x = 1 := div_self h0.ne'
  have hgrid : OnGrid .binary32 1 := one_single.2 ▸ one_single.1.onGrid
  obtain ⟨hf, hn⟩ := div_single hx hx h0.le h0 hgrid (by norm_num) hone.le
  rw [hone] at hn
  have hvalue : singleValue (x / x) = singleValue 1 := (hn.eq_of_grid hgrid).trans one_single.2.symm
  exact eq_of_unpack_eq (eq_of_value_eq hf one_single.1 hvalue
    (by rw [show value (x / x).toModel.unpack = _ from hvalue, one_single.2]; exact one_ne_zero))

/-- **Natural numbers below `2 ^ 64`** are rounded. -/
theorem singleOfNat_spec {n : ℕ} (hn : n < 2 ^ 64) :
    FiniteSingle (singleOfNat n) ∧ Nearest .binary32 n (singleValue (singleOfNat n)) := by
  have hto : n.toUInt64.toNat = n := UInt64.toNat_ofNat_of_lt' hn
  have hr := ofNat_spec (f := .binary32) n.toUInt64.toNat
  have hgrid : OnGrid .binary32 (2 ^ 64) := ⟨1, 64, by decide, by decide, by norm_num⟩
  obtain ⟨hp, -⟩ := hr.between (by decide) hgrid (by norm_num [exponentRange]) (Nat.cast_nonneg _)
    (by rw [hto]; exact_mod_cast hn.le)
  have hu : (singleOfNat n).toModel.unpack = UnpackedFloat.ofNat .binary32 n.toUInt64.toNat := by
    rw [singleOfNat, if_pos (show n < UInt64.size from hn)]
    exact hp
  rw [FiniteSingle, singleValue, hu]
  rw [hto] at hr ⊢
  exact hr

end HaarDetection
