import HaarDetection.Proofs.Number.Double
import HaarDetection.Proofs.Number.Single

/-!
# From single to double precision, and back

A single is a double, so nothing is lost on the way there. On the way back a number is rounded, but not
out of a span between two singles; nor do sums and quotients in double precision leave a span between
two doubles.

* `holds_widen`: **every finite single is a double.**
* `FiniteSingle.abs_lt`: finite singles are below `2 ^ 128`.
* `Within`: a double in a span. `Within.add`, `Within.div` and `Within.narrow` say what becomes of it.
-/

namespace HaarDetection

open Float.Model (Format UnpackedFloat)

variable {x y : Float} {a b a' b' q : ℚ}

/-- **A finite number in another format** is rounded to it. -/
theorem reformat_spec {f g : Format} {u : UnpackedFloat} (h : Canonical f u) :
    RoundsTo g (value u) (reformat g u) := by
  cases u with
  | infinity s => exact h.elim
  | notANumber => exact h.elim
  | zero s => exact RoundsTo.zero s
  | finite s m e hm => exact round_spec s hm e

/-- A finite number that has been kept as bits is not too large. -/
theorem FiniteSingle.abs_lt {x : Float32} (h : FiniteSingle x) : |singleValue x| < 2 ^ 128 := by
  have hpack : repack .binary32 x.toModel.unpack = x.toModel.unpack :=
    congrArg (UnpackedFloat.unpack .binary32) (pack_unpack (by decide) x.toModel.valid)
  have hcanon : Canonical .binary32 (repack .binary32 x.toModel.unpack) := by rw [hpack]; exact h
  exact ((RoundsTo.refl h).of_finite (by decide) hcanon).2

/-- Multiples of singles by numbers of a few bits are doubles. -/
theorem onGrid_mul_nat {n : ℕ} (h : OnGrid .binary32 q) (hn : n ≤ 2 ^ 29) :
    OnGrid .binary64 (q * n) := by
  obtain ⟨k, t, ht, hk, rfl⟩ := h
  have hmin : (Format.minExponent .binary32 : ℤ) = -149 := rfl
  have hmin' : (Format.minExponent .binary64 : ℤ) = -1074 := rfl
  refine ⟨k * n, t, by omega, ?_, by push_cast; ring⟩
  rw [abs_mul, Nat.abs_cast]
  calc |k| * n ≤ 2 ^ 24 * 2 ^ 29 := mul_le_mul hk (by exact_mod_cast hn) (by positivity) (by positivity)
    _ = 2 ^ 53 := by norm_num

theorem OnGrid.double (h : OnGrid .binary32 q) : OnGrid .binary64 q := by
  simpa using onGrid_mul_nat (n := 1) h (by norm_num)

/-- Doubles are far larger. -/
theorem mul_nat_lt {n : ℕ} (hq : q < 2 ^ 128) (hn : n ≤ 2 ^ 29) :
    q * n < 2 ^ exponentRange .binary64 := by
  have hnq : (n : ℚ) ≤ 2 ^ 29 := by exact_mod_cast hn
  calc q * n ≤ 2 ^ 128 * n := mul_le_mul_of_nonneg_right hq.le (Nat.cast_nonneg n)
    _ ≤ 2 ^ 128 * 2 ^ 29 := mul_le_mul_of_nonneg_left hnq (by norm_num)
    _ < 2 ^ 158 := by norm_num
    _ ≤ 2 ^ exponentRange .binary64 := pow_le_pow_right₀ (by norm_num) (by decide)

/-- **Every finite single is a double.** -/
theorem holds_widen {x : Float32} (h : FiniteSingle x) : Holds (widen x) (singleValue x) := by
  refine (reformat_spec h).exact (by decide) h.onGrid.double ?_
  exact h.abs_lt.trans_le (pow_le_pow_right₀ (by norm_num) (by decide))

/-- A number is not undefined. -/
theorem Holds.isUndefined (h : Holds x q) : Scalar.isUndefined x = false := isNaN_eq_false h.1

/-- **A double in a span.** -/
def Within (x : Float) (a b : ℚ) : Prop := ∃ q, Holds x q ∧ a ≤ q ∧ q ≤ b

/-- Exact products. -/
theorem Holds.mul_of_grid (hx : Holds x a) (hy : Holds y b) (hab : OnGrid .binary64 (a * b))
    (h0 : 0 ≤ a * b) (hlt : a * b < 2 ^ exponentRange .binary64) : Holds (x * y) (a * b) := by
  have hr := mul_spec hx.1 hy.1
  rw [hx.2, hy.2] at hr
  exact hr.exact (by decide) hab (by rwa [abs_of_nonneg h0])

/-- **A sum stays in the span of the sums**, if its ends are doubles. -/
theorem Within.add (hx : Within x a b) (hy : Within y a' b') (ha : OnGrid .binary64 (a + a'))
    (hb : OnGrid .binary64 (b + b')) (h0 : 0 ≤ a + a') (hlt : b + b' < 2 ^ exponentRange .binary64) :
    Within (x + y) (a + a') (b + b') := by
  obtain ⟨q, hq, haq, hqb⟩ := hx
  obtain ⟨q', hq', haq', hqb'⟩ := hy
  have hr := add_spec hq.1 hq'.1
  rw [hq.2, hq'.2] at hr
  obtain ⟨hc, hle, hge⟩ := hr.within (by decide) ha hb hlt h0 (add_le_add haq haq') (add_le_add hqb hqb')
  exact ⟨_, ⟨hc, rfl⟩, hle, hge⟩

/-- **A quotient stays in the span of the quotients.** -/
theorem Within.div {n : ℕ} (hx : Within x (a * n) (b * n)) (hy : Holds y n) (hn : 0 < n)
    (ha : OnGrid .binary64 a) (hb : OnGrid .binary64 b) (h0 : 0 ≤ a)
    (hlt : b < 2 ^ exponentRange .binary64) : Within (x / y) a b := by
  obtain ⟨q, hq, haq, hqb⟩ := hx
  have hnq : (0 : ℚ) < n := by exact_mod_cast hn
  have hr := div_spec hq.1 hy.1 (by rw [hy.2]; exact hnq.ne')
  rw [hq.2, hy.2] at hr
  obtain ⟨hc, hle, hge⟩ := hr.within (by decide) ha hb hlt h0 ((le_div_iff₀ hnq).2 haq)
    ((div_le_iff₀ hnq).2 hqb)
  exact ⟨_, ⟨hc, rfl⟩, hle, hge⟩

/-- **The nearest single** is in the span, if its ends are singles. -/
theorem Within.narrow (hx : Within x a b) (ha : OnGrid .binary32 a) (hb : OnGrid .binary32 b)
    (h0 : 0 ≤ a) (hlt : b < 2 ^ 128) :
    FiniteSingle (narrow x) ∧ a ≤ singleValue (narrow x) ∧ singleValue (narrow x) ≤ b := by
  obtain ⟨q, hq, haq, hqb⟩ := hx
  have hr := reformat_spec (g := .binary32) hq.1
  rw [hq.2] at hr
  exact hr.within (by decide) ha hb hlt h0 haq hqb

theorem Within.isUndefined (hx : Within x a b) : Scalar.isUndefined x = false := by
  obtain ⟨q, hq, -⟩ := hx
  exact hq.isUndefined

end HaarDetection
