import HaarDetection.Proofs.Number.Double
import HaarDetection.Proofs.Number.Exact

/-!
# Rounding to integers

A double is rounded to the nearest integer, halves away from zero. A quotient of integers has been
rounded before, to the nearest double; while the dividend is below `2 ^ 52` this does not lead to another
integer.

* `nearestInt_neg`, `nearestInt_mono`, `nearestInt_intCast`: the nearest integer of a real number.
* `nearestWithin_of_holds`: **the nearest integer of a double.**
* `nearestInt_of_nearest`: **a quotient that is rounded twice.**
-/

namespace HaarDetection

open Float.Model (UnpackedFloat)

section NearestInt

variable {x y : ℝ}

theorem nearestInt_neg (x : ℝ) : nearestInt (-x) = -nearestInt x := by
  rcases lt_trichotomy x 0 with h | rfl | h
  · rw [nearestInt_of_nonneg (by linarith), nearestInt, if_neg (not_le.2 h), neg_neg]
  · norm_num [nearestInt]
  · rw [nearestInt_of_nonneg h.le, nearestInt, if_neg (by linarith), neg_neg]

theorem nearestInt_nonneg (h : 0 ≤ x) : 0 ≤ nearestInt x := by
  rw [nearestInt_of_nonneg h]
  exact Int.floor_nonneg.2 (by linarith)

theorem nearestInt_mono (h : x ≤ y) : nearestInt x ≤ nearestInt y := by
  have hpos : ∀ {a b : ℝ}, 0 ≤ a → a ≤ b → nearestInt a ≤ nearestInt b := by
    intro a b ha hab
    rw [nearestInt_of_nonneg ha, nearestInt_of_nonneg (ha.trans hab)]
    exact Int.floor_mono (by linarith)
  rcases le_total 0 x with hx | hx
  · exact hpos hx h
  · have hx' := nearestInt_nonneg (neg_nonneg.2 hx)
    rw [nearestInt_neg] at hx'
    rcases le_total 0 y with hy | hy
    · have hy' := nearestInt_nonneg hy
      omega
    · have hle := hpos (neg_nonneg.2 hy) (neg_le_neg h)
      rw [nearestInt_neg, nearestInt_neg] at hle
      omega

theorem nearestInt_intCast (z : ℤ) : nearestInt z = z := by
  have hnat : ∀ n : ℕ, nearestInt (n : ℝ) = n := by
    intro n
    rw [nearestInt_of_nonneg (Nat.cast_nonneg n), Int.floor_eq_iff]
    push_cast
    constructor <;> linarith
  rcases Int.eq_nat_or_neg z with ⟨n, rfl | rfl⟩
  · exact_mod_cast hnat n
  · push_cast
    rw [nearestInt_neg, hnat]

/-- The nearest integer stays between two integers. -/
theorem nearestInt_between {lo hi : ℤ} (hlo : (lo : ℝ) ≤ x) (hhi : x ≤ hi) :
    lo ≤ nearestInt x ∧ nearestInt x ≤ hi :=
  ⟨nearestInt_intCast lo ▸ nearestInt_mono hlo, nearestInt_intCast hi ▸ nearestInt_mono hhi⟩

/-- The nearest integer of a quotient of natural numbers. -/
theorem nearestInt_natCast_div (m : ℕ) {n : ℕ} (hn : 0 < n) :
    nearestInt ((m / n : ℚ) : ℝ) = ((2 * m + n) / (2 * n) : ℕ) := by
  have hnr : (0 : ℝ) < n := by exact_mod_cast hn
  have hsum : ((m / n : ℚ) : ℝ) + 1 / 2 = ((2 * m + n : ℕ) : ℝ) / ((2 * n : ℕ) : ℝ) := by
    push_cast
    field_simp
  rw [nearestInt_of_nonneg (by push_cast; positivity), hsum]
  exact (Int.natCast_floor_eq_floor (by positivity)).symm.trans
    (congrArg Nat.cast (Nat.floor_div_eq_div _ _))

end NearestInt

theorem clamp_eq {lo hi z : ℤ} (hlo : lo ≤ z) (hhi : z ≤ hi) : clamp lo hi z = z := by
  unfold clamp
  omega

theorem roundHalfUp_eq (m : ℕ) (e : ℤ) : roundHalfUp m e = ⌊(m : ℚ) * 2 ^ e + 1 / 2⌋₊ := by
  cases e with
  | ofNat up =>
    rw [roundHalfUp, Nat.shiftLeft_eq, eq_comm, Nat.floor_eq_iff (by positivity)]
    push_cast
    rw [Int.ofNat_eq_natCast, zpow_natCast]
    constructor <;> linarith
  | negSucc down =>
    have hp : (0 : ℚ) < 2 ^ down := by positivity
    have heq : (m : ℚ) * 2 ^ (Int.negSucc down) + 1 / 2 =
        ((m + 2 ^ down : ℕ) : ℚ) / ((2 ^ (down + 1) : ℕ) : ℚ) := by
      rw [zpow_negSucc]
      push_cast
      rw [pow_succ]
      field_simp
    rw [roundHalfUp, Nat.one_shiftLeft, Nat.shiftRight_eq_div_pow, heq, Nat.floor_div_eq_div]

/-- The nearest integer of a number that is not negative, from its mantissa. -/
theorem nearestInt_mantissa (m : ℕ) (e : ℤ) :
    nearestInt ((m * 2 ^ e : ℚ) : ℝ) = roundHalfUp m e := by
  have h0 : (0 : ℚ) ≤ m * 2 ^ e := by positivity
  have hcast : ((m * 2 ^ e : ℚ) : ℝ) + 1 / 2 = ((m * 2 ^ e + 1 / 2 : ℚ) : ℝ) := by push_cast; rfl
  rw [nearestInt_of_nonneg (by exact_mod_cast h0), hcast, Rat.floor_cast, roundHalfUp_eq,
    Int.natCast_floor_eq_floor (by positivity)]

/-- **The nearest integer of a double.** -/
theorem nearestWithin_of_holds {x : Float} {q : ℚ} (h : Holds x q) (lo hi : ℤ) :
    nearestWithin lo hi x = clamp lo hi (nearestInt (q : ℝ)) := by
  obtain ⟨hc, rfl⟩ := h
  unfold nearestWithin
  cases hu : x.toModel.unpack with
  | infinity s => rw [hu] at hc; exact hc.elim
  | notANumber => rw [hu] at hc; exact hc.elim
  | zero s =>
    simp only [value_zero]
    norm_num [nearestInt]
  | finite s m e hm =>
    cases s with
    | negative =>
      simp only [UnpackedFloat.Sign.apply, value_finite, signed, Rat.cast_neg, nearestInt_neg,
        nearestInt_mantissa]
    | positive => simp only [UnpackedFloat.Sign.apply, value_finite, signed, nearestInt_mantissa]

section Quotient

/-- Zero divided by a number is zero, or no number, whatever the sign of zero is. -/
theorem nearestWithin_zero_div {x y : Float} {b : ℚ} (hx : Holds x 0) (hy : Holds y b) (lo hi : ℤ) :
    nearestWithin lo hi (x / y) = if b = 0 then 0 else clamp lo hi 0 := by
  split
  · rename_i hb
    subst hb
    obtain ⟨s, hs⟩ := hx.eq_zero
    obtain ⟨s', hs'⟩ := hy.eq_zero
    have hu : (x / y).toModel.unpack = .notANumber :=
      (congrArg₂ (fun u v => repack .binary64 (UnpackedFloat.div .binary64 u v)) hs hs').trans
        repack_notANumber
    rw [nearestWithin, hu]
  · rename_i hb
    obtain ⟨q, hq, hnear⟩ := hx.div hy hb (n := 0) (by decide) (by simp)
    rw [zero_div] at hnear
    rw [hnear.eq_of_grid OnGrid.zero] at hq
    rw [nearestWithin_of_holds hq]
    norm_num [nearestInt]

/-- **A rounded quotient** is known from what the dividend stands for. Only zero is divided by zero. -/
theorem nearestWithin_div_congr {x x' y : Float} {a b : ℚ} (hx : Holds x a) (hx' : Holds x' a)
    (hy : Holds y b) (h0 : b = 0 → a = 0) (lo hi : ℤ) :
    nearestWithin lo hi (x / y) = nearestWithin lo hi (x' / y) := by
  rcases eq_or_ne a 0 with rfl | ha
  · rw [nearestWithin_zero_div hx hy, nearestWithin_zero_div hx' hy]
  · have hu : (x / y).toModel.unpack = (x' / y).toModel.unpack :=
      congrArg (fun u => repack .binary64 (UnpackedFloat.div .binary64 u y.toModel.unpack))
        (hx.unpack_eq hx' ha)
    rw [nearestWithin, nearestWithin, hu]

/-- Where a quotient lies that is rounded to `k`: a step of quotients by `n` short of the upper bound
at least. -/
theorem quotient_bounds {m n k : ℕ} (hn : 0 < n) (hk : (2 * m + n) / (2 * n) = k) :
    (k : ℚ) - 1 / 2 ≤ m / n ∧ (m : ℚ) / n ≤ k + 1 / 2 - 1 / (2 * n) := by
  have hnq : (0 : ℚ) < n := by exact_mod_cast hn
  constructor
  · have h1 : k * (2 * n) ≤ 2 * m + n := hk ▸ Nat.div_mul_le_self _ _
    have h2 : ((k * (2 * n) : ℕ) : ℚ) ≤ ((2 * m + n : ℕ) : ℚ) := by exact_mod_cast h1
    push_cast at h2
    rw [le_div_iff₀ hnq]
    linarith
  · have h1 : 2 * m + n + 1 ≤ (k + 1) * (2 * n) := by
      have := Nat.lt_div_mul_add (a := 2 * m + n) (b := 2 * n) (by omega)
      rw [hk] at this
      rw [show (k + 1) * (2 * n) = k * (2 * n) + 2 * n by ring]
      omega
    have h2 : ((2 * m + n + 1 : ℕ) : ℚ) ≤ (((k + 1) * (2 * n) : ℕ) : ℚ) := by exact_mod_cast h1
    push_cast at h2
    rw [div_le_iff₀ hnq]
    have h3 : (1 : ℚ) / (2 * n) * n = 1 / 2 := by field_simp
    nlinarith

/-- The error of a quotient is less than half a step of quotients by `n`. -/
theorem quotient_error_lt {m n : ℕ} {q : ℚ} (h : Nearest .binary64 (m / n) q) (hn : 0 < n)
    (hn' : n ≤ 2 ^ 53) (hm : m < 2 ^ 52) : |q - m / n| < 1 / (2 * n) := by
  have hnq : (0 : ℚ) < n := by exact_mod_cast hn
  rcases Nat.eq_zero_or_pos m with rfl | hpos
  · rw [Nat.cast_zero, zero_div] at h ⊢
    rw [h.eq_of_grid OnGrid.zero, sub_zero, abs_zero]
    positivity
  -- other quotients are not so small that rounding could change them by more than the usual part
  have hmq : (1 : ℚ) ≤ m := by exact_mod_cast hpos
  have hnq' : (n : ℚ) ≤ 2 ^ 53 := by exact_mod_cast hn'
  have hmq' : (m : ℚ) < 2 ^ 52 := by exact_mod_cast hm
  have hpos' : (0 : ℚ) ≤ (m : ℚ) / n := by positivity
  have hmin : (1 : ℚ) / 2 ^ 53 ≤ m / n := by
    rw [div_le_div_iff₀ (by positivity) hnq]
    nlinarith
  have hnormal : (2 : ℚ) ^ 52 * 2 ^ (-1074 : ℤ) ≤ 1 / 2 ^ 53 := by
    rw [one_div, ← zpow_natCast, ← zpow_natCast, ← zpow_neg, ← zpow_add₀ (by norm_num)]
    exact zpow_le_zpow_right₀ (by norm_num) (by norm_num)
  have herr := h.relative_error_le (by
    rw [abs_of_nonneg hpos']
    exact hnormal.trans hmin)
  have hbits : Float.Model.Format.mantissaBits .binary64 = 53 := rfl
  rw [abs_of_nonneg hpos', hbits] at herr
  refine herr.trans_lt ?_
  rw [div_div, div_lt_div_iff₀ (by positivity) (by positivity)]
  nlinarith

/-- Halves are on the grid. -/
theorem onGrid_half {k : ℕ} (hk : k ≤ 2 ^ 52) : OnGrid .binary64 ((k : ℚ) - 1 / 2) := by
  have h := OnGrid.of_multiple (f := .binary64) (k := 2 * k - 1) (n := 1) (by decide) (by
    have hb : Float.Model.Format.mantissaBits .binary64 = 53 := rfl
    rw [hb, abs_le]; omega)
  have heq : ((2 * (k : ℤ) - 1 : ℤ) : ℚ) / 2 ^ 1 = k - 1 / 2 := by push_cast; ring
  rwa [heq] at h

theorem nearestInt_of_nearest_nat {m n : ℕ} {q : ℚ} (h : Nearest .binary64 (m / n) q) (hn : 0 < n)
    (hn' : n ≤ 2 ^ 53) (hm : m < 2 ^ 52) : nearestInt (q : ℝ) = nearestInt ((m / n : ℚ) : ℝ) := by
  have hq0 := h.nonneg (by positivity)
  rw [nearestInt_natCast_div m hn]
  generalize hk : (2 * m + n) / (2 * n) = k
  have hkm : k ≤ m + 1 := by
    rw [← hk]
    exact Nat.div_le_of_le_mul (by nlinarith)
  -- at the lower bound, which is on the grid, rounding stops; the upper one it does not reach
  obtain ⟨hlow, hup⟩ := quotient_bounds hn hk
  have h1 := h.le_of_ge (onGrid_half (by omega)) hlow
  have h2 := (abs_lt.1 (quotient_error_lt h hn hn' hm)).2
  have hcast : (q : ℝ) + 1 / 2 = ((q + 1 / 2 : ℚ) : ℝ) := by push_cast; rfl
  rw [nearestInt_of_nonneg (by exact_mod_cast hq0), hcast, Rat.floor_cast, Int.floor_eq_iff]
  constructor <;> push_cast <;> linarith

/-- **A quotient that is rounded twice**, to a double and then to an integer, is rounded to the integer
nearest to it, while the dividend is below `2 ^ 52`. -/
theorem nearestInt_of_nearest {z : ℤ} {n : ℕ} {q : ℚ} (h : Nearest .binary64 (z / n) q) (hn : 0 < n)
    (hn' : n ≤ 2 ^ 53) (hz : z.natAbs < 2 ^ 52) : nearestInt (q : ℝ) = nearestInt ((z / n : ℚ) : ℝ) := by
  rcases Int.eq_nat_or_neg z with ⟨m, rfl | rfl⟩
  · rw [Int.cast_natCast] at h ⊢
    exact nearestInt_of_nearest_nat h hn hn' (by omega)
  · have hneg := h.neg
    rw [Int.cast_neg, Int.cast_natCast, neg_div, neg_neg] at hneg
    have heq := nearestInt_of_nearest_nat hneg hn hn' (by omega)
    rw [Rat.cast_neg, nearestInt_neg] at heq
    rw [Int.cast_neg, Int.cast_natCast, neg_div, Rat.cast_neg, nearestInt_neg, ← heq, neg_neg]

end Quotient

end HaarDetection
