import HaarDetection.Proofs.Number.Convert
import HaarDetection.Proofs.Number.Quotient
import HaarDetection.Proofs.Number.TotalOrder

/-!
# The order of singles up to infinity

Sums and products of singles that are not negative keep their order, also where they are infinite. A
number that is multiplied by a factor above one does not become smaller, and one that is divided by it
does not become greater. Numbers with a full mantissa do change.

* `NotNegative`, `UpTo`: **the order of singles that are not negative**, the infinite one included.
* `UpTo.mul_left`, `UpTo.add`, `UpTo.toUInt32_le`: what keeps the order.
* `upTo_mul`, `div_upTo`: **growing and shrinking by a factor.**
* `Normal`: the positive numbers with a full mantissa.
* `Normal.lt_mul`, `Normal.div_lt`: **no normal number is kept** by a factor above one.
* `totalKey_mem`: there are `2 ^ 31` positive singles at most.
-/

namespace HaarDetection

open Float.Model (Format UnpackedFloat)

theorem mul_comm_unpacked {f : Format} (a b : UnpackedFloat) :
    UnpackedFloat.mul f a b = UnpackedFloat.mul f b a := by
  have hsign : ∀ s s' : UnpackedFloat.Sign, s * s' = s' * s := by
    intro s s'
    cases s <;> cases s' <;> rfl
  cases a <;> cases b <;> simp only [UnpackedFloat.mul] <;>
    simp [hsign, Nat.mul_comm, Int.add_comm]

variable {x y z : Float32}

theorem mul_comm_single (x y : Float32) : x * y = y * x :=
  eq_of_unpack_eq (congrArg (repack .binary32)
    (mul_comm_unpacked x.toModel.unpack y.toModel.unpack))

/-- **A single that is not negative**, possibly infinite. -/
def NotNegative (x : Float32) : Prop :=
  x.toModel.unpack = .infinity .positive ∨ FiniteSingle x ∧ 0 ≤ singleValue x

/-- **A single up to another one**, neither of them negative. -/
inductive UpTo (x y : Float32) : Prop
  | infinite (hx : NotNegative x) (hy : y.toModel.unpack = .infinity .positive)
  | finite (hx : FiniteSingle x) (hy : FiniteSingle y) (h0 : 0 ≤ singleValue x)
    (hle : singleValue x ≤ singleValue y)

theorem UpTo.left (h : UpTo x y) : NotNegative x := by
  cases h with
  | infinite hx => exact hx
  | finite hx _ h0 => exact .inr ⟨hx, h0⟩

theorem UpTo.right (h : UpTo x y) : NotNegative y := by
  cases h with
  | infinite _ hy => exact .inl hy
  | finite _ hy h0 hle => exact .inr ⟨hy, h0.trans hle⟩

theorem UpTo.finite_left (h : UpTo x y) (hy : FiniteSingle y) : FiniteSingle x ∧ 0 ≤ singleValue x := by
  cases h with
  | infinite _ hinf =>
    rw [FiniteSingle, hinf] at hy
    exact hy.elim
  | finite hx _ h0 => exact ⟨hx, h0⟩

/-- What is rounded from a number that is not negative is not negative. -/
theorem notNegative_of_roundsTo {q : ℚ} {u : UnpackedFloat} (h : RoundsTo .binary32 q u) (hq : 0 ≤ q)
    (hx : x.toModel.unpack = repack .binary32 u) : NotNegative x := by
  refine (h.repack_of_nonneg (by decide) hq).imp hx.trans ?_
  intro heq
  rw [FiniteSingle, singleValue, hx, heq]
  exact ⟨h.1, h.2.nonneg hq⟩

section Mul

variable (hz : FiniteSingle z) (hz0 : 0 < singleValue z)
include hz hz0

theorem mul_infinity_single (hx : x.toModel.unpack = .infinity .positive) :
    (z * x).toModel.unpack = .infinity .positive := by
  obtain ⟨m, e, hm, hu⟩ := finite_of_pos hz hz0
  change repack .binary32 (UnpackedFloat.mul .binary32 z.toModel.unpack x.toModel.unpack) = _
  rw [hu, hx]
  exact repack_infinity _

theorem NotNegative.mul_left (hx : NotNegative x) : NotNegative (z * x) := by
  rcases hx with hinf | ⟨hf, h0⟩
  · exact .inl (mul_infinity_single hz hz0 hinf)
  · exact notNegative_of_roundsTo (mul_spec hz hf) (mul_nonneg hz0.le h0) rfl

/-- **Multiples keep the order.** -/
theorem UpTo.mul_left (h : UpTo x y) : UpTo (z * x) (z * y) := by
  have hx := h.left.mul_left hz hz0
  cases h with
  | infinite _ hy => exact .infinite hx (mul_infinity_single hz hz0 hy)
  | finite hfx hfy h0 hle =>
    rcases NotNegative.mul_left hz hz0 (.inr ⟨hfy, h0.trans hle⟩) with hinf | ⟨hfin, -⟩
    · exact .infinite hx hinf
    · rw [mul_comm_single] at hfin
      obtain ⟨hfin', hle'⟩ := mul_single_mono hfx h0 hle hfin hz0.le
      rw [mul_comm_single z, mul_comm_single z]
      exact .finite hfin' hfin ((mul_single hfin').2.2.nonneg (mul_nonneg h0 hz0.le)) hle'

end Mul

section Add

variable (hz : FiniteSingle z) (hz0 : 0 ≤ singleValue z)
include hz hz0

theorem NotNegative.add (hx : NotNegative x) : NotNegative (x + z) := by
  rcases hx with hinf | ⟨hf, h0⟩
  · refine .inl ?_
    change repack .binary32 (UnpackedFloat.add .binary32 x.toModel.unpack z.toModel.unpack) = _
    rw [hinf]
    exact add_infinity hz
  · exact notNegative_of_roundsTo (add_spec hf hz) (add_nonneg h0 hz0) rfl

/-- **Sums keep the order.** -/
theorem UpTo.add (h : UpTo x y) : UpTo (x + z) (y + z) := by
  have hx := h.left.add hz hz0
  cases h with
  | infinite _ hy =>
    refine .infinite hx ?_
    change repack .binary32 (UnpackedFloat.add .binary32 y.toModel.unpack z.toModel.unpack) = _
    rw [hy]
    exact add_infinity hz
  | finite hfx hfy h0 hle =>
    rcases NotNegative.add hz hz0 (.inr ⟨hfy, h0.trans hle⟩) with hinf | ⟨hfin, -⟩
    · exact .infinite hx hinf
    · obtain ⟨hfin', hle'⟩ := add_mono (by decide) hfx hfy hz h0 hz0 hle hfin
      exact .finite hfin' hfin ((add_single hfin').2.2.nonneg (add_nonneg h0 hz0)) hle'

end Add

/-- **Cut to integers**, singles keep the order. -/
theorem UpTo.toUInt32_le (h : UpTo x y) : x.toUInt32 ≤ y.toUInt32 := by
  rw [UInt32.le_iff_toNat_le]
  cases h with
  | infinite _ hy =>
    rw [toUInt32_infinity hy]
    exact Nat.le_sub_one_of_lt (UInt32.toNat_lt _)
  | finite hx hy h0 hle =>
    rw [toUInt32_eq hx h0, toUInt32_eq hy (h0.trans hle)]
    exact min_le_min_right _ (Nat.floor_le_floor hle)

section Factor

variable (hy : FiniteSingle y) (hy1 : 1 ≤ singleValue y)
include hy hy1

/-- **Growing by a factor.** -/
theorem upTo_mul (hx : NotNegative x) : UpTo x (x * y) := by
  have hy0 : 0 < singleValue y := zero_lt_one.trans_le hy1
  have hmul := hx.mul_left hy hy0
  rw [mul_comm_single] at hmul
  rcases hmul with hinf | ⟨hfin, h0⟩
  · exact .infinite hx hinf
  · obtain ⟨hfx, -, hn⟩ := mul_single hfin
    rcases hx with hinf | ⟨-, hx0⟩
    · rw [FiniteSingle, hinf] at hfx
      exact hfx.elim
    · exact .finite hfx hfin hx0 (hn.le_of_ge hfx.onGrid (le_mul_of_one_le_right hx0 hy1))

/-- **Shrinking by a factor.** -/
theorem div_upTo (hx : FiniteSingle x) (hx0 : 0 ≤ singleValue x) : UpTo (x / y) x := by
  have hy0 : 0 < singleValue y := zero_lt_one.trans_le hy1
  have hle : singleValue x / singleValue y ≤ singleValue x := div_le_self hx0 hy1
  obtain ⟨hf, hn⟩ := div_single hx hy hx0 hy0 hx.onGrid (lt_of_abs_lt hx.abs_lt) hle
  exact .finite hf hx (hn.nonneg (div_nonneg hx0 hy0.le)) (hn.le_of_le hx.onGrid hle)

end Factor

/-- **A positive number with a full mantissa.** -/
structure Normal (x : Float32) : Prop where
  finite : FiniteSingle x
  least_le : 2 ^ (-126 : ℤ) ≤ singleValue x

namespace Normal

theorem pos (h : Normal x) : 0 < singleValue x := lt_of_lt_of_le (by positivity) h.least_le

/-- Its mantissa has 24 bits. -/
theorem mantissa (h : Normal x) :
    ∃ (m : ℕ) (e : ℤ), singleValue x = m * 2 ^ e ∧ 2 ^ 23 ≤ m ∧ m < 2 ^ 24 ∧ -149 ≤ e := by
  obtain ⟨m, e, hm, hu⟩ := finite_of_pos h.finite h.pos
  have hvalue : singleValue x = m * 2 ^ e := by rw [singleValue, hu, value_finite]; rfl
  have hc := h.finite
  rw [FiniteSingle, hu] at hc
  obtain ⟨hlt, hmin, hfull⟩ := hc
  refine ⟨m, e, hvalue, hfull.elim id fun hleast => ?_, hlt, hmin⟩
  -- the least exponent goes with smaller mantissas only below the least normal number
  have hle := h.least_le
  rw [hvalue, hleast.trans (rfl : _ = (-149 : ℤ)), ← div_le_iff₀ (by positivity),
    ← zpow_sub₀ (by norm_num)] at hle
  norm_num at hle ⊢
  exact_mod_cast hle

end Normal

section Strict

variable (hx : Normal x) (hy : FiniteSingle y) (hy1 : 1 < singleValue y)

include hy hy1 in
/-- A factor above one exceeds it by a unit of the last place at least. -/
theorem add_ulp_le : 1 + 1 / 2 ^ 23 ≤ singleValue y := by
  obtain ⟨j, hj⟩ := hy.onGrid.multiple (t := -23) (by
    have hm : Format.mantissaBits .binary32 - 1 = 23 := rfl
    rw [hm]
    norm_num
    exact hy1.le)
  rw [zpow_neg, ← div_eq_mul_inv] at hj
  have hp : (0 : ℚ) < 2 ^ (23 : ℤ) := by positivity
  have hlt : (2 : ℚ) ^ 23 < j := by
    rw [hj, lt_div_iff₀ hp, one_mul] at hy1
    exact_mod_cast hy1
  have hle : (2 : ℤ) ^ 23 + 1 ≤ j := by exact_mod_cast hlt
  have hle' : (2 : ℚ) ^ 23 + 1 ≤ j := by exact_mod_cast hle
  rw [hj, le_div_iff₀ hp]
  norm_num at hle' ⊢
  linarith

include hx hy1

/-- **A normal number grows** by a factor above one. -/
theorem Normal.lt_mul (h : FiniteSingle (x * y)) : singleValue x < singleValue (x * y) := by
  obtain ⟨-, hy, hn⟩ := mul_single h
  have hulp := add_ulp_le hy hy1
  obtain ⟨m, e, hvalue, hfull, hlt, hmin⟩ := hx.mantissa
  have hp : (0 : ℚ) < 2 ^ e := zpow_pos (by norm_num) e
  have hm : (2 : ℚ) ^ 23 ≤ m := by exact_mod_cast hfull
  -- the next number of the grid is not above the exact product
  have hnext : OnGrid .binary32 (((m + 1 : ℤ) : ℚ) * 2 ^ e) :=
    ⟨m + 1, e, hmin, by
      have hbits : Format.mantissaBits .binary32 = 24 := rfl
      rw [hbits, abs_le]
      omega, rfl⟩
  have hle : ((m + 1 : ℤ) : ℚ) * 2 ^ e ≤ singleValue x * singleValue y := by
    rw [hvalue, mul_right_comm]
    refine mul_le_mul_of_nonneg_right ?_ hp.le
    push_cast
    nlinarith
  refine lt_of_lt_of_le ?_ (hn.le_of_ge hnext hle)
  rw [hvalue]
  push_cast
  linarith

include hy

/-- **A normal number shrinks** when it is divided by a factor above one. -/
theorem Normal.div_lt : singleValue (x / y) < singleValue x := by
  have hx0 := hx.pos
  have hy0 : 0 < singleValue y := zero_lt_one.trans hy1
  have hulp := add_ulp_le hy hy1
  have hquotient : singleValue x / singleValue y ≤ singleValue x := div_le_self hx0.le hy1.le
  obtain ⟨-, hn⟩ := div_single hx.finite hy hx0.le hy0 hx.finite.onGrid
    (lt_of_abs_lt hx.finite.abs_lt) hquotient
  refine (hn.le_of_le hx.finite.onGrid hquotient).lt_of_ne fun heq => ?_
  obtain ⟨m, e, hvalue, hfull, hlt, hmin⟩ := hx.mantissa
  have hp : (0 : ℚ) < 2 ^ e := zpow_pos (by norm_num) e
  have hm : (2 : ℚ) ^ 23 ≤ m := by exact_mod_cast hfull
  -- the exact quotient is past the middle between the number and the one before it
  have hprev : OnGrid .binary32 (((m - 1 : ℤ) : ℚ) * 2 ^ e) :=
    ⟨m - 1, e, hmin, by
      have hbits : Format.mantissaBits .binary32 = 24 := rfl
      rw [hbits, abs_le]
      omega, rfl⟩
  have hgap : 2 ^ e / 2 < singleValue x - singleValue x / singleValue y := by
    have hq : singleValue x / singleValue y * (1 + 1 / 2 ^ 23) ≤ singleValue x :=
      (mul_le_mul_of_nonneg_left hulp (div_nonneg hx0.le hy0.le)).trans
        (div_mul_cancel₀ _ hy0.ne').le
    have hxp : 2 ^ 23 * 2 ^ e ≤ singleValue x := hvalue ▸ mul_le_mul_of_nonneg_right hm hp.le
    linarith
  have hclose := hn.closest _ hprev
  rw [heq, abs_of_nonneg (sub_nonneg.2 hquotient), hvalue] at hclose
  rw [hvalue] at hgap hquotient
  push_cast at hclose
  rcases le_total (m * 2 ^ e / singleValue y) (((m : ℚ) - 1) * 2 ^ e) with hle | hle
  · rw [abs_of_nonneg (sub_nonneg.2 hle)] at hclose
    linarith
  · rw [abs_of_nonpos (sub_nonpos.2 hle)] at hclose
    linarith

end Strict

/-- **Positive singles** have places from `0` up to `2 ^ 31` in the total order. -/
theorem totalKey_mem (hx : FiniteSingle x) (h0 : 0 < singleValue x) :
    0 ≤ totalKey x ∧ totalKey x < 2 ^ 31 := by
  obtain ⟨m, e, hm, hu⟩ := finite_of_pos hx h0
  have hlt : x.toBits.toNat < 0x80000000 := (toNat_of_unpack hu).2
  rw [totalKey_of_lt hlt]
  omega

/-- Greater numbers come later in the total order. -/
theorem totalKey_lt (hx : FiniteSingle x) (hx0 : 0 < singleValue x) (hy : FiniteSingle y)
    (hxy : singleValue x < singleValue y) : totalKey x < totalKey y := by
  have hle := totalKey_le_iff hy (hx0.trans hxy) hx hx0
  rw [← not_le, hle]
  exact not_le.2 hxy

end HaarDetection
