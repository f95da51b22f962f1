import HaarDetection.Proofs.Geometry.Lengths
import HaarDetection.Proofs.Number.SingleOrder

/-!
# Windows at growing scales

A window does not become smaller when the scale grows. The scale that leads from a side to a length is a
quotient that is rounded, and the product with the side is rounded again, but with the slack the window
has the length in the end.

* `Size.scale_mono`: **windows keep the order of scales.**
* `wholePixels_ratio`: **the ratio of two lengths** leads from one to the other.
* `normal_of_wholePixels`: the scale of a window that has pixels, and not too many, is a normal number.
-/

namespace HaarDetection

open Float.Model (Format)

variable {side length : UInt32} {scale scale' : Float32}

theorem toFloat32_pos (h : 0 < side.toNat) : 0 < singleValue side.toFloat32 :=
  zero_lt_one.trans_le ((atLeastOne_toFloat32 h).one_le (toFloat32_single side).1)

theorem wholePixels_mono (hside : 0 < side.toNat) (h : UpTo scale scale') :
    wholePixels (side.toFloat32 * scale) ≤ wholePixels (side.toFloat32 * scale') := by
  have hslack : 0 ≤ singleValue 0.001 := slack_single.2 ▸ slack_pos.le
  exact ((h.mul_left (toFloat32_single side).1 (toFloat32_pos hside)).add slack_single.1
    hslack).toUInt32_le

/-- **Windows keep the order of scales.** -/
theorem Size.scale_mono {base : Size} (hbase : 0 < base.width.toNat ∧ 0 < base.height.toNat)
    (h : UpTo scale scale') : (base.scale scale').Fits (base.scale scale) :=
  ⟨wholePixels_mono hbase.1 h, wholePixels_mono hbase.2 h⟩

/-- A length within a relative `2 ^ -24` of `n` pixels has `n` whole pixels. -/
theorem wholePixels_eq {l : Float32} {q : ℚ} {n : ℕ} (hl : FiniteSingle l)
    (hq : Nearest .binary32 q (singleValue l)) (hn : n < 2 ^ 15) (hlow : n * (1 - 1 / 2 ^ 24) ≤ q)
    (hup : q ≤ n * (1 + 1 / 2 ^ 24)) : (wholePixels l).toNat = n := by
  have hbits : Format.mantissaBits .binary32 = 24 := rfl
  have hslack : slack < 1 / 4 := by norm_num [slack]
  have hnq : (n : ℚ) < 2 ^ 15 := by exact_mod_cast hn
  have hn0 : (0 : ℚ) ≤ n := Nat.cast_nonneg n
  have hl0 : 0 ≤ singleValue l := hq.nonneg (by nlinarith)
  -- rounding stops at the numbers of the grid that are a little above
  have hshort : OnGrid .binary32 (((n * 2 ^ 2 + 1 : ℤ) : ℚ) / 2 ^ 2) :=
    OnGrid.of_multiple (by decide) (by rw [hbits, abs_le]; omega)
  have hhalf : OnGrid .binary32 (((2 * n + 1 : ℤ) : ℚ) / 2 ^ 1) :=
    OnGrid.of_multiple (by decide) (by rw [hbits, abs_le]; omega)
  have hle := hq.le_of_le hshort (by push_cast; linarith)
  push_cast at hle hhalf
  obtain ⟨hf, hr⟩ := add_single_of_le hl slack_single.1 hl0 (slack_single.2 ▸ slack_pos.le) hhalf
    (by linarith) (by rw [slack_single.2]; linarith)
  rw [slack_single.2] at hr
  have hr0 := hr.nonneg (add_nonneg hl0 slack_pos.le)
  have hrle := hr.le_of_le hhalf (by linarith)
  have hge := le_sum hq hr hlow hr0 hn.le
  have hfloor : ⌊singleValue (l + 0.001)⌋₊ = n := (Nat.floor_eq_iff hr0).2 ⟨hge, by linarith⟩
  rw [wholePixels, toUInt32_eq hf hr0, hfloor]
  omega

/-- The quotient of two lengths is a finite number. -/
theorem ratio_nearest (length : UInt32) (hside : 0 < side.toNat) :
    FiniteSingle (length.toFloat32 / side.toFloat32) ∧
      Nearest .binary32 (singleValue length.toFloat32 / singleValue side.toFloat32)
        (singleValue (length.toFloat32 / side.toFloat32)) := by
  obtain ⟨hf, -⟩ := toFloat32_single length
  have hone : 1 ≤ singleValue side.toFloat32 :=
    (atLeastOne_toFloat32 hside).one_le (toFloat32_single side).1
  exact div_single hf (toFloat32_single side).1 (toFloat32_nonneg length) (toFloat32_pos hside) hf.onGrid
    (lt_of_abs_lt hf.abs_lt) (div_le_self (toFloat32_nonneg length) hone)

section Ratio

variable (hside : 0 < side.toNat) (hside' : side.toNat ≤ 2 ^ 24) (hlength : 0 < length.toNat)
  (hlength' : length.toNat < 2 ^ 15)
include hside hside' hlength hlength'

/-- **The ratio of two lengths** is rounded by a relative `2 ^ -24` at most. -/
theorem ratio_spec : FiniteSingle (length.toFloat32 / side.toFloat32) ∧
    0 ≤ singleValue (length.toFloat32 / side.toFloat32) ∧
      length.toNat * (1 - 1 / 2 ^ 24) ≤
        side.toNat * singleValue (length.toFloat32 / side.toFloat32) ∧
      side.toNat * singleValue (length.toFloat32 / side.toFloat32) ≤
        (length.toNat : ℚ) * (1 + 1 / 2 ^ 24) := by
  have hs1 : (1 : ℚ) ≤ side.toNat := by exact_mod_cast hside
  have hs2 : (side.toNat : ℚ) ≤ 2 ^ 24 := by exact_mod_cast hside'
  have hl1 : (1 : ℚ) ≤ length.toNat := by exact_mod_cast hlength
  obtain ⟨hf, hn⟩ := ratio_nearest length hside
  rw [toFloat32_exact hside', toFloat32_exact (by omega)] at hn
  have hq : 0 < (length.toNat : ℚ) / side.toNat := by positivity
  have hleast : (2 : ℚ) ^ (-24 : ℤ) ≤ length.toNat / side.toNat := by
    rw [le_div_iff₀ (by positivity)]
    have hone : (2 : ℚ) ^ (-24 : ℤ) * 2 ^ 24 ≤ 1 := by norm_num
    exact (mul_le_mul_of_nonneg_left hs2 (by positivity)).trans (hone.trans hl1)
  have herr := hn.relative_error_le (by
    rw [abs_of_pos hq]
    refine le_trans ?_ hleast
    norm_num [Format.mantissaBits, Format.minExponent])
  have hbits : Format.mantissaBits .binary32 = 24 := rfl
  rw [abs_of_pos hq, hbits, abs_le] at herr
  have hcancel : (side.toNat : ℚ) * (length.toNat / side.toNat) = length.toNat :=
    mul_div_cancel₀ _ (by positivity)
  have hlow := mul_le_mul_of_nonneg_left herr.1 (zero_le_one.trans hs1)
  have hup := mul_le_mul_of_nonneg_left herr.2 (zero_le_one.trans hs1)
  exact ⟨hf, hn.nonneg hq.le, by linarith, by linarith⟩

/-- **The ratio of two lengths** leads from one to the other. -/
theorem wholePixels_ratio :
    wholePixels (side.toFloat32 * (length.toFloat32 / side.toFloat32)) = length := by
  obtain ⟨hf, h0, hlow, hup⟩ := ratio_spec hside hside' hlength hlength'
  have hl : (length.toNat : ℚ) < 2 ^ 15 := by exact_mod_cast hlength'
  have hgrid : OnGrid .binary32 ((2 ^ 16 : ℕ) : ℚ) := OnGrid.of_nat (by decide)
  obtain ⟨hp, hn⟩ := mul_single_of_le (toFloat32_single side).1 hf (toFloat32_nonneg side) h0 hgrid
    (by norm_num) (by rw [toFloat32_exact hside']; push_cast; linarith)
  rw [toFloat32_exact hside'] at hn
  exact UInt32.toNat_inj.1 (wholePixels_eq hp hn hlength' hlow hup)

end Ratio

/-- **The scale of a window that has pixels**, and not too many, is a normal number. -/
theorem normal_of_wholePixels (side : UInt32) (h0 : 0 < (wholePixels (side.toFloat32 * scale)).toNat)
    (h1 : (wholePixels (side.toFloat32 * scale)).toNat < 2 ^ 32 - 1) : Normal scale := by
  obtain ⟨hl, hr, hr0, hfloor⟩ := wholePixels_spec h0 h1
  obtain ⟨-, hf, hp⟩ := mul_single hl
  have hone : (1 : ℕ) ≤ ⌊singleValue (side.toFloat32 * scale + 0.001)⌋₊ := by omega
  have hr1 := (Nat.le_floor_iff hr0).1 hone
  have hslack : slack < 1 / 4 := by norm_num [slack]
  have hhalf : OnGrid .binary32 (((1 : ℤ) : ℚ) / 2 ^ 1) := OnGrid.of_multiple (by decide) (by decide)
  have hquarter : OnGrid .binary32 (((1 : ℤ) : ℚ) / 2 ^ 2) := OnGrid.of_multiple (by decide) (by decide)
  refine ⟨hf, ?_⟩
  by_contra hlt
  push Not at hlt
  -- otherwise the window has no pixel
  have hside : singleValue side.toFloat32 ≤ 2 ^ 32 := by
    have hgrid : OnGrid .binary32 (2 ^ 32) := ⟨1, 32, by decide, by decide, by norm_num⟩
    exact (toFloat32_single side).2.le_of_le hgrid (by exact_mod_cast side.toNat_lt.le)
  have hmul : singleValue side.toFloat32 * singleValue scale ≤ ((1 : ℤ) : ℚ) / 2 ^ 2 := by
    calc singleValue side.toFloat32 * singleValue scale
        ≤ singleValue side.toFloat32 * 2 ^ (-126 : ℤ) :=
          mul_le_mul_of_nonneg_left hlt.le (toFloat32_nonneg side)
      _ ≤ 2 ^ 32 * 2 ^ (-126 : ℤ) := mul_le_mul_of_nonneg_right hside (by positivity)
      _ ≤ ((1 : ℤ) : ℚ) / 2 ^ 2 := by norm_num
  have hsum := hr.le_of_le hhalf (by
    have := hp.le_of_le hquarter hmul
    push_cast at this ⊢
    linarith)
  push_cast at hr1 hsum
  linarith

end HaarDetection
