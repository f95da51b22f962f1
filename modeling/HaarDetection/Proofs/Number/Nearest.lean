import Mathlib

/-!
# Rounding to the nearest number of a format

The numbers of a binary format, were there no greatest exponent, are a grid on the rationals that
is finer near zero. The arithmetic of a machine gives, for an exact result, a number of the grid
that no other one is nearer to.

* `OnGrid`: the numbers of a format.
* `Nearest f x v`: `v` is a number of the format `f` nearest to `x`.
* `Nearest.le_of_le`, `Nearest.le_of_ge`: **rounding does not cross a number of the grid.**
* `Nearest.mono`: rounding keeps the order of exact results.
* `Nearest.error_le`, `Nearest.relative_error_le`: how far rounding leads away.
-/

namespace HaarDetection

open Float.Model (Format)

variable {f : Format} {x x' y v v' : ℚ}

/-- A number of the format, whatever its exponent above the least one. -/
def OnGrid (f : Format) (y : ℚ) : Prop :=
  ∃ k t : ℤ, f.minExponent ≤ t ∧ |k| ≤ 2 ^ f.mantissaBits ∧ y = k * 2 ^ t

/-- **Rounding to nearest.** No number of the format is nearer to `x` than `v`. -/
structure Nearest (f : Format) (x v : ℚ) : Prop where
  grid : OnGrid f v
  closest : ∀ y, OnGrid f y → |v - x| ≤ |y - x|

theorem OnGrid.neg (h : OnGrid f y) : OnGrid f (-y) := by
  obtain ⟨k, t, ht, hk, rfl⟩ := h
  exact ⟨-k, t, ht, by rwa [abs_neg], by push_cast; ring⟩

theorem OnGrid.zero : OnGrid f 0 :=
  ⟨0, f.minExponent, le_rfl, by simp, by simp⟩

theorem minExponent_nonpos (f : Format) : f.minExponent ≤ 0 := by
  have h1 : (1 : ℤ) ≤ 2 ^ (f.exponentBits - 1) := one_le_pow₀ (by norm_num)
  have h2 := f.hm
  unfold Format.minExponent Format.mantissaBits
  push_cast
  omega

/-- Multiples of a power of two that is not too small are on the grid while they fit in the bits of
a mantissa. -/
theorem OnGrid.of_multiple {k : ℤ} {n : ℕ} (hn : f.minExponent ≤ -(n : ℤ))
    (hk : |k| ≤ 2 ^ f.mantissaBits) : OnGrid f (k / 2 ^ n) :=
  ⟨k, -n, hn, hk, by rw [zpow_neg, zpow_natCast, div_eq_mul_inv]⟩

theorem OnGrid.of_nat {n : ℕ} (hn : n ≤ 2 ^ f.mantissaBits) : OnGrid f n := by
  have h := OnGrid.of_multiple (f := f) (k := n) (n := 0)
    (by have := minExponent_nonpos f; omega) (by rw [Nat.abs_cast]; exact_mod_cast hn)
  simpa using h

/-- A number of the grid is a multiple of `2 ^ t`, or on a finer part of the grid, which ends at
`2 ^ t` times a full mantissa. -/
theorem OnGrid.multiple_or_le (h : OnGrid f y) (t : ℤ) :
    (∃ j : ℤ, y = j * 2 ^ t) ∨ f.minExponent < t ∧ y ≤ 2 ^ (f.mantissaBits - 1) * 2 ^ t := by
  obtain ⟨k, t', ht', hk, rfl⟩ := h
  rcases le_or_gt t t' with hle | hlt
  · refine .inl ⟨k * 2 ^ (t' - t).toNat, ?_⟩
    push_cast
    rw [mul_assoc, ← zpow_natCast, ← zpow_add₀ (by norm_num)]
    congr 2; omega
  · refine .inr ⟨by omega, ?_⟩
    have hk' : (k : ℚ) ≤ 2 ^ f.mantissaBits := by exact_mod_cast (le_abs_self k).trans hk
    have hm : f.mantissaBits = f.mantissaBits - 1 + 1 := by unfold Format.mantissaBits; omega
    calc (k : ℚ) * 2 ^ t' ≤ 2 ^ f.mantissaBits * 2 ^ (t - 1) :=
          mul_le_mul hk' (zpow_le_zpow_right₀ (by norm_num) (by omega)) (by positivity) (by positivity)
      _ = 2 ^ (f.mantissaBits - 1) * 2 ^ t := by
          rw [hm, pow_succ, Nat.add_sub_cancel, zpow_sub_one₀ (by norm_num)]; ring

/-- Numbers of the grid from `2 ^ t` times a full mantissa on are multiples of `2 ^ t`. -/
theorem OnGrid.multiple (h : OnGrid f y) {t : ℤ} (hy : 2 ^ (f.mantissaBits - 1) * 2 ^ t ≤ y) :
    ∃ j : ℤ, y = j * 2 ^ t := by
  rcases h.multiple_or_le t with hj | ⟨-, hle⟩
  · exact hj
  · exact ⟨2 ^ (f.mantissaBits - 1), by push_cast; exact le_antisymm hle hy⟩

namespace Nearest

theorem neg (h : Nearest f x v) : Nearest f (-x) (-v) := by
  refine ⟨h.grid.neg, ?_⟩
  intro y hy
  have := h.closest (-y) hy.neg
  rw [show -v - -x = -(v - x) by ring, show y - -x = -(-y - x) by ring, abs_neg, abs_neg]
  exact this

theorem of_grid (hx : OnGrid f x) : Nearest f x x := ⟨hx, fun y _ => by simp⟩

/-- **Exact results are not rounded.** -/
theorem eq_of_grid (h : Nearest f x v) (hx : OnGrid f x) : v = x := by
  have := h.closest x hx
  rw [sub_self, abs_zero] at this
  exact sub_eq_zero.1 (abs_nonpos_iff.1 this)

/-- Rounding up stops at the next number of the grid. -/
theorem le_of_le (h : Nearest f x v) (hy : OnGrid f y) (hxy : x ≤ y) : v ≤ y := by
  by_contra hc
  push Not at hc
  have := h.closest y hy
  rw [abs_of_pos (by linarith : 0 < v - x), abs_of_nonneg (by linarith : 0 ≤ y - x)] at this
  linarith

/-- Rounding down stops at the next number of the grid. -/
theorem le_of_ge (h : Nearest f x v) (hy : OnGrid f y) (hyx : y ≤ x) : y ≤ v := by
  have := h.neg.le_of_le hy.neg (neg_le_neg hyx)
  linarith

theorem nonneg (h : Nearest f x v) (hx : 0 ≤ x) : 0 ≤ v := h.le_of_ge OnGrid.zero hx

/-- **Rounding keeps the order.** -/
theorem mono (h : Nearest f x v) (h' : Nearest f x' v') (hx : x < x') : v ≤ v' := by
  by_contra hc
  push Not at hc
  have h1 := h.closest v' h'.grid
  have h2 := h'.closest v h.grid
  -- `x` is past the middle between `v'` and `v`, `x'` is not
  have h3 : v' + v ≤ 2 * x := by
    rcases le_total x v' with hl | hl
    · rw [abs_of_nonneg (by linarith), abs_of_nonneg (by linarith)] at h1; linarith
    · rcases le_total x v with hr | hr
      · rw [abs_of_nonneg (by linarith), abs_of_nonpos (by linarith)] at h1; linarith
      · linarith
  have h4 : 2 * x' ≤ v' + v := by
    rcases le_total x' v' with hl | hl
    · linarith
    · rcases le_total x' v with hr | hr
      · rw [abs_of_nonpos (by linarith), abs_of_nonneg (by linarith)] at h2; linarith
      · rw [abs_of_nonpos (by linarith), abs_of_nonpos (by linarith)] at h2; linarith
  linarith

/-- The distance from `x` to the nearest multiple of `2 ^ t` is half of that at most. -/
theorem error_le (h : Nearest f x v) {t : ℤ} (ht : f.minExponent ≤ t)
    (hx : |x| ≤ 2 ^ f.mantissaBits * 2 ^ t) : |v - x| ≤ 2 ^ t / 2 := by
  have hp : (0 : ℚ) < 2 ^ t := zpow_pos (by norm_num) t
  set k : ℤ := round (x / 2 ^ t)
  have hk : |k| ≤ 2 ^ f.mantissaBits := by
    have hb : |x / 2 ^ t| ≤ ((2 ^ f.mantissaBits : ℤ) : ℚ) := by
      rw [abs_div, abs_of_pos hp, div_le_iff₀ hp]; push_cast; exact hx
    have h1 := round_le_add_half (x / 2 ^ t)
    have h2 := sub_half_lt_round (x / 2 ^ t)
    rw [abs_le] at hb ⊢
    constructor
    · have : ((-2 ^ f.mantissaBits - 1 : ℤ) : ℚ) < k := by push_cast at hb ⊢; linarith
      have := Int.cast_lt.1 this
      omega
    · have : (k : ℚ) < ((2 ^ f.mantissaBits + 1 : ℤ) : ℚ) := by push_cast at hb ⊢; linarith
      have := Int.cast_lt.1 this
      omega
  refine (h.closest (k * 2 ^ t) ⟨k, t, ht, hk, rfl⟩).trans ?_
  have hr := abs_sub_round (x / 2 ^ t)
  have heq : (k : ℚ) * 2 ^ t - x = -((x / 2 ^ t - k) * 2 ^ t) := by field_simp; ring
  rw [heq, abs_neg, abs_mul, abs_of_pos hp]
  nlinarith

/-- **Rounding changes a number by half a unit of its last place at most.** -/
theorem relative_error_le (h : Nearest f x v)
    (hx : 2 ^ (f.mantissaBits - 1) * 2 ^ f.minExponent ≤ |x|) :
    |v - x| ≤ |x| / 2 ^ f.mantissaBits := by
  have hp0 : (0 : ℚ) < 2 ^ f.minExponent := zpow_pos (by norm_num) _
  have hpos : 0 < |x| := lt_of_lt_of_le (by positivity) hx
  have hm : 1 ≤ f.mantissaBits := by unfold Format.mantissaBits; omega
  set l : ℤ := Int.log 2 |x| with hl
  have h1 : (2 : ℚ) ^ l ≤ |x| := by exact_mod_cast Int.zpow_log_le_self (by norm_num) hpos
  have h2 : |x| < (2 : ℚ) ^ (l + 1) := by
    exact_mod_cast Int.lt_zpow_succ_log_self (b := 2) (by norm_num) |x|
  -- the unit of the last place of `x`
  set t : ℤ := l + 1 - f.mantissaBits with hdt
  have ht : f.minExponent ≤ t := by
    have h3 : (2 : ℚ) ^ ((f.mantissaBits - 1 : ℕ) + f.minExponent) < 2 ^ (l + 1) := by
      rw [zpow_add₀ (by norm_num), zpow_natCast]; exact hx.trans_lt h2
    have := (zpow_lt_zpow_iff_right₀ (by norm_num : (1 : ℚ) < 2)).1 h3
    omega
  have hsplit : (2 : ℚ) ^ (l + 1) = 2 ^ f.mantissaBits * 2 ^ t := by
    rw [← zpow_natCast, ← zpow_add₀ (by norm_num), hdt]; congr 1; ring
  refine (h.error_le ht (by rw [← hsplit]; exact h2.le)).trans ?_
  rw [le_div_iff₀ (by positivity)]
  have h5 : (2 : ℚ) ^ (l + 1) = 2 * 2 ^ l := by rw [zpow_add_one₀ (by norm_num)]; ring
  linarith

/-- A multiple of `2 ^ t` within half of that is a nearest one among all multiples. -/
theorem units_closest {r : ℕ} {t : ℤ} (hr : |(r : ℚ) * 2 ^ t - x| ≤ 2 ^ t / 2) (j : ℤ) :
    |(r : ℚ) * 2 ^ t - x| ≤ |(j : ℚ) * 2 ^ t - x| := by
  have hp : (0 : ℚ) < 2 ^ t := zpow_pos (by norm_num) t
  by_cases hj : j = r
  · subst hj; simp
  have h1 : (1 : ℚ) ≤ |(j : ℚ) - r| := by
    have : (1 : ℤ) ≤ |j - r| := Int.one_le_abs (sub_ne_zero.2 hj)
    exact_mod_cast this
  have h2 : (2 : ℚ) ^ t ≤ |(j : ℚ) * 2 ^ t - r * 2 ^ t| := by
    rw [← sub_mul, abs_mul, abs_of_pos hp]; nlinarith
  have h3 := abs_sub_le ((j : ℚ) * 2 ^ t) x (r * 2 ^ t)
  rw [abs_sub_comm x] at h3
  linarith

/-- **What makes a multiple of `2 ^ t` a nearest number of the grid:** it is within half a unit of
`x`, and the grid is not finer than `2 ^ t` from `x` on. -/
theorem of_units {r : ℕ} {t : ℤ} (ht : f.minExponent ≤ t) (hr : |(r : ℚ) * 2 ^ t - x| ≤ 2 ^ t / 2)
    (hlow : t = f.minExponent ∨ 2 ^ (f.mantissaBits - 1) * 2 ^ t ≤ x)
    (hup : r ≤ 2 ^ f.mantissaBits) : Nearest f x (r * 2 ^ t) := by
  refine ⟨⟨r, t, ht, by rw [Nat.abs_cast]; exact_mod_cast hup, by simp⟩, ?_⟩
  intro y hy
  rcases hy.multiple_or_le t with ⟨j, rfl⟩ | ⟨ht', hle⟩
  · exact units_closest hr j
  · -- `x` is above the finer part of the grid, so its end is at least as near as `y`
    have hx := hlow.resolve_left (by omega)
    have h1 := units_closest hr (2 ^ (f.mantissaBits - 1))
    push_cast at h1
    rw [abs_of_nonpos (by linarith : (2 : ℚ) ^ (f.mantissaBits - 1) * 2 ^ t - x ≤ 0)] at h1
    rw [abs_of_nonpos (by linarith : y - x ≤ 0)]
    linarith

end Nearest

end HaarDetection
