import HaarDetection.Number.Scalar
import HaarDetection.Proofs.Number.Finite

/-!
# Double precision

Sums and products of integers in double precision are exact up to `2 ^ 53`, and quotients of them are
rounded.

* `Holds`: a double that stands for a rational.
* `holds_ofInt`, `Holds.add`, `Holds.mul`: **exact arithmetic.**
* `Holds.div`: quotients are rounded.
* `Holds.unpack_eq`: a double that is not zero is known from its value.
-/

namespace HaarDetection

open Float.Model (UnpackedFloat)

variable {x y : Float} {a b : ℚ}

/-- **The double stands for a rational.** -/
def Holds (x : Float) (q : ℚ) : Prop := Canonical .binary64 x.toModel.unpack ∧ value x.toModel.unpack = q

/-- Integers up to `2 ^ 53` are on the grid, and not too large. -/
theorem grid_int {z : ℤ} (hz : z.natAbs ≤ 2 ^ 53) :
    OnGrid .binary64 z ∧ |(z : ℚ)| < 2 ^ exponentRange .binary64 := by
  have habs : |z| ≤ 2 ^ 53 := by
    rw [Int.abs_eq_natAbs]
    exact_mod_cast hz
  refine ⟨⟨z, 0, by decide, habs, by simp⟩, ?_⟩
  calc |(z : ℚ)| ≤ 2 ^ 53 := by exact_mod_cast habs
    _ < 2 ^ exponentRange .binary64 := pow_lt_pow_right₀ (by norm_num) (by decide)

theorem holds_doubleOfNat {n : ℕ} (hn : n ≤ 2 ^ 53) : Holds (doubleOfNat n) n := by
  obtain ⟨hg, hlt⟩ := grid_int (z := n) hn
  rw [Int.cast_natCast] at hg hlt
  have hto : n.toUInt64.toNat = n := UInt64.toNat_ofNat_of_lt' (hn.trans_lt (by decide))
  have h := (ofNat_spec (f := .binary64) n.toUInt64.toNat).exact (by decide) (by rwa [hto]) (by rwa [hto])
  rw [hto] at h
  rw [doubleOfNat, if_pos (hn.trans_lt (by decide))]
  have hu : n.toUInt64.toFloat.toModel.unpack =
      repack .binary64 (UnpackedFloat.ofNat .binary64 n.toUInt64.toNat) := rfl
  rw [Holds, hu, hto]
  exact h

/-- What is negated stands for the negative. -/
theorem canonical_neg {f : Float.Model.Format} {u : UnpackedFloat} (h : Canonical f u) :
    Canonical f u.neg ∧ value u.neg = -value u := by
  cases u with
  | infinity s => exact h.elim
  | notANumber => exact h.elim
  | zero s => exact ⟨trivial, neg_zero.symm⟩
  | finite s m e hm =>
    refine ⟨h, ?_⟩
    cases s
    · exact (neg_neg _).symm
    · rfl

theorem Holds.neg (hx : Holds x a) (ha : |a| < 2 ^ exponentRange .binary64) : Holds (-x) (-a) := by
  obtain ⟨hc, hv⟩ := canonical_neg hx.1
  rw [hx.2] at hv
  have hu : (-x).toModel.unpack = x.toModel.unpack.neg := by
    refine unpack_pack (by decide) hc ?_
    rwa [hv, abs_neg]
  rw [Holds, hu]
  exact ⟨hc, hv⟩

/-- **Integers** up to `2 ^ 53` are converted exactly. -/
theorem holds_ofInt {z : ℤ} (hz : z.natAbs ≤ 2 ^ 53) : Holds (Scalar.ofInt z) z := by
  have h := holds_doubleOfNat hz
  have hlt := (grid_int hz).2
  change Holds (doubleOfInt z) z
  unfold doubleOfInt
  split
  · have hcast : ((z.natAbs : ℕ) : ℚ) = -z := by
      rw [Nat.cast_natAbs, abs_of_neg (by assumption), Int.cast_neg]
    rw [hcast] at h
    have hneg := h.neg (by rwa [abs_neg])
    rwa [neg_neg] at hneg
  · have hcast : ((z.natAbs : ℕ) : ℚ) = z := by
      rw [Nat.cast_natAbs, abs_of_nonneg (by omega)]
    rwa [hcast] at h

/-- Natural numbers up to `2 ^ 53` are converted exactly. -/
theorem holds_ofNat {n : ℕ} (hn : n ≤ 2 ^ 53) : Holds (Scalar.ofNat n) n := by
  have h := holds_ofInt (z := n) hn
  rwa [Int.cast_natCast] at h

/-- **Sums** up to `2 ^ 53` are exact. -/
theorem Holds.add (hx : Holds x a) (hy : Holds y b) {z : ℤ} (hab : a + b = z) (hz : z.natAbs ≤ 2 ^ 53) :
    Holds (x + y) z := by
  obtain ⟨hg, hlt⟩ := grid_int hz
  have hr := add_spec hx.1 hy.1
  rw [hx.2, hy.2, hab] at hr
  exact hr.exact (by decide) hg hlt

/-- **Products** up to `2 ^ 53` are exact. -/
theorem Holds.mul (hx : Holds x a) (hy : Holds y b) {z : ℤ} (hab : a * b = z) (hz : z.natAbs ≤ 2 ^ 53) :
    Holds (x * y) z := by
  obtain ⟨hg, hlt⟩ := grid_int hz
  have hr := mul_spec hx.1 hy.1
  rw [hx.2, hy.2, hab] at hr
  exact hr.exact (by decide) hg hlt

/-- **Quotients** are rounded, if they are not too large. -/
theorem Holds.div (hx : Holds x a) (hy : Holds y b) (hb : b ≠ 0) {n : ℕ} (hn : n ≤ 2 ^ 53)
    (hab : |a / b| ≤ n) : ∃ q, Holds (x / y) q ∧ Nearest .binary64 (a / b) q := by
  have hr := div_spec hx.1 hy.1 (by rwa [hy.2])
  rw [hx.2, hy.2] at hr
  set u := UnpackedFloat.div .binary64 x.toModel.unpack y.toModel.unpack with hu
  obtain ⟨hg, hlt⟩ := grid_int (z := n) hn
  rw [Int.cast_natCast] at hg hlt
  obtain ⟨hlow, hup⟩ := abs_le.1 hab
  have hle : |value u| ≤ n := abs_le.2 ⟨hr.2.le_of_ge hg.neg hlow, hr.2.le_of_le hg hup⟩
  have hkept : repack .binary64 u = u := unpack_pack (by decide) hr.1 (hle.trans_lt (lt_of_abs_lt hlt))
  have hxy : (x / y).toModel.unpack = repack .binary64 u := rfl
  exact ⟨value u, by rw [Holds, hxy, hkept]; exact ⟨hr.1, rfl⟩, hr.2⟩

/-- **A double that is not zero** is known from its value. -/
theorem Holds.unpack_eq (hx : Holds x a) (hy : Holds y a) (ha : a ≠ 0) :
    x.toModel.unpack = y.toModel.unpack :=
  eq_of_value_eq hx.1 hy.1 (hx.2.trans hy.2.symm) (by rwa [hx.2])

/-- A double that stands for zero, of one of the two signs. -/
theorem Holds.eq_zero (h : Holds x 0) : ∃ s, x.toModel.unpack = .zero s := by
  obtain ⟨hc, hv⟩ := h
  cases hu : x.toModel.unpack with
  | infinity s => rw [hu] at hc; exact hc.elim
  | notANumber => rw [hu] at hc; exact hc.elim
  | zero s => exact ⟨s, rfl⟩
  | finite s m e hm =>
    have habs := abs_value_finite s (e := e) hm
    rw [hu] at hv
    rw [hv, abs_zero] at habs
    exact absurd habs (finite_pos e hm).ne

end HaarDetection
