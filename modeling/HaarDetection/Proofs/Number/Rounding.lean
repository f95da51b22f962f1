import HaarDetection.Proofs.Number.Nearest

/-!
# The rounding of the machine

Sums, products and quotients of floating-point numbers are made on mantissas and exponents, with
two bits that tell where the exact result lies between two mantissas. Here the result is compared
with exact arithmetic on the rationals.

* `value`, `Canonical`: the rational that a finite number stands for, and the form of the numbers
  that a format can hold.
* `Places m x a`: the exact number `x` lies at the mantissa `m` as the accuracy `a` tells.
* `roundWithAccuracy_spec`, `round_spec`: **rounding gives a nearest number of the format.**
-/

namespace HaarDetection

open Float.Model (Format UnpackedFloat totalExponent)
open Float.Model.UnpackedFloat

variable {f : Format} {m : ℕ} {e t : ℤ} {x : ℚ} {a : Accuracy}

/-- A rational with a sign put in front of it. -/
def signed : Sign → ℚ → ℚ
  | .negative, q => -q
  | .positive, q => q

/-- The rational that a finite number stands for, and zero for any other one. -/
def value : UnpackedFloat → ℚ
  | .finite s m e _ => signed s (m * 2 ^ e)
  | _ => 0

/-- The finite numbers in the form in which a format holds them, were there no greatest exponent:
with as many bits as there are in a mantissa, or with fewer and the least exponent. -/
def Canonical (f : Format) : UnpackedFloat → Prop
  | .finite _ m e _ =>
    m < 2 ^ f.mantissaBits ∧ f.minExponent ≤ e ∧ (2 ^ (f.mantissaBits - 1) ≤ m ∨ e = f.minExponent)
  | .zero _ => True
  | _ => False

theorem signed_zero (s : Sign) : signed s 0 = 0 := by cases s <;> simp [signed]

theorem signed_apply (s : Sign) (n : ℤ) (q : ℚ) : ((s.apply n : ℤ) : ℚ) * q = signed s (n * q) := by
  cases s <;> simp [signed, Sign.apply]

theorem Nearest.signed {v : ℚ} (h : Nearest f x v) (s : Sign) :
    Nearest f (HaarDetection.signed s x) (HaarDetection.signed s v) := by
  cases s
  · exact h.neg
  · exact h

theorem mantissaBits_eq (f : Format) : f.mantissaBits = f.mantissaBits - 1 + 1 := by
  unfold Format.mantissaBits; omega

theorem two_pow_mantissaBits (f : Format) : 2 ^ f.mantissaBits = 2 * 2 ^ (f.mantissaBits - 1) := by
  conv_lhs => rw [mantissaBits_eq, pow_succ, mul_comm]

theorem canonical_onGrid {u : UnpackedFloat} (h : Canonical f u) : OnGrid f (value u) := by
  cases u with
  | finite s m e hm =>
    have hg : OnGrid f (m * 2 ^ e) :=
      ⟨m, e, h.2.1, by rw [Nat.abs_cast]; exact_mod_cast h.1.le, by simp⟩
    cases s
    · exact hg.neg
    · exact hg
  | zero s => exact OnGrid.zero
  | infinity s => exact h.elim
  | notANumber => exact h.elim

/-- Where an exact number lies: at the mantissa `m`, or before, at or behind the middle between it
and the next one. -/
def Places (m : ℕ) (x : ℚ) : Accuracy → Prop
  | .exact => x = m
  | .inexact .lt => m < x ∧ x < m + 1 / 2
  | .inexact .eq => x = m + 1 / 2
  | .inexact .gt => m + 1 / 2 < x ∧ x < m + 1

namespace Places

theorem bounds (h : Places m x a) : (m : ℚ) ≤ x ∧ x < m + 1 := by
  rcases a with _ | (_ | _ | _) <;> simp only [Places] at h <;> constructor <;> linarith

/-- Half of a number, at half of the mantissa. -/
theorem half {em : ExtendedMantissa} (h : Places em.mantissa x em.accuracy) :
    Places em.shiftRightOne.mantissa (x / 2) em.shiftRightOne.accuracy := by
  obtain ⟨m, r, s⟩ := em
  -- the bit that is shifted out becomes the first one behind the mantissa, the others are merged
  have hc : ((m / 2 : ℕ) : ℚ) * 2 + ((m % 2 : ℕ) : ℚ) = m := by exact_mod_cast Nat.div_add_mod' m 2
  rcases Nat.mod_two_eq_zero_or_one m with hm | hm <;> rw [hm] at hc <;> push_cast at hc <;>
    cases r <;> cases s <;>
    simp only [Places, ExtendedMantissa.accuracy, ExtendedMantissa.shiftRightOne, hm, bne_self_eq_false,
      Bool.or_self, Bool.or_true, Bool.true_or, show (1 != 0) = true from rfl] at h ⊢ <;>
    first | linarith | (constructor <;> linarith)

theorem shift {em : ExtendedMantissa} (h : Places em.mantissa x em.accuracy) (n : ℕ) :
    Places (em >>> n).mantissa (x / 2 ^ n) (em >>> n).accuracy := by
  change Places (n.repeat ExtendedMantissa.shiftRightOne em).mantissa _
    (n.repeat ExtendedMantissa.shiftRightOne em).accuracy
  induction n with
  | zero => simpa [Nat.repeat] using h
  | succ n ih =>
    rw [pow_succ, ← div_div]
    exact ih.half

theorem ofMantissaAndAccuracy (h : Places m x a) :
    Places (ExtendedMantissa.ofMantissaAndAccuracy m a).mantissa x
      (ExtendedMantissa.ofMantissaAndAccuracy m a).accuracy := by
  rcases a with _ | (_ | _ | _) <;> exact h

/-- The exponent that a number is shifted to, and where it lies then. -/
theorem shiftToExponent (h : Places m x a) (he : e ≤ t) :
    (UnpackedFloat.shiftToExponent m e a t).2 = t ∧
      Places (UnpackedFloat.shiftToExponent m e a t).1.mantissa (x * 2 ^ e / 2 ^ t)
        (UnpackedFloat.shiftToExponent m e a t).1.accuracy := by
  have hn : e + ((t - e).toNat : ℤ) = t := by omega
  refine ⟨hn, ?_⟩
  have hx : x * 2 ^ e / 2 ^ t = x / 2 ^ (t - e).toNat := by
    conv_lhs => rw [← hn, zpow_add₀ (by norm_num), zpow_natCast]
    field_simp
  rw [hx]
  exact h.ofMantissaAndAccuracy.shift _

/-- The rounded mantissa is the nearest integer. -/
theorem rounded {em : ExtendedMantissa} (h : Places em.mantissa x em.accuracy) :
    |(em.roundedMantissa : ℚ) - x| ≤ 1 / 2 := by
  unfold ExtendedMantissa.roundedMantissa
  generalize em.accuracy = a at h
  -- only at the middle it matters whether the mantissa is even
  rcases a with _ | (_ | _ | _) <;> simp only [Places, Accuracy.roundToNearestEven] at h ⊢
  · rw [h]; simp
  · rw [abs_le]; constructor <;> linarith
  · rcases Nat.mod_two_eq_zero_or_one em.mantissa with hm | hm <;> rw [hm, h, abs_le] <;>
      push_cast <;> constructor <;> linarith
  · rw [abs_le]; push_cast; constructor <;> linarith

theorem rounded_le {em : ExtendedMantissa} (h : Places em.mantissa x em.accuracy) {n : ℕ}
    (hx : x < n) : em.roundedMantissa ≤ n := by
  have h1 := (abs_le.1 h.rounded).2
  have h2 : (em.roundedMantissa : ℚ) < (n + 1 : ℕ) := by push_cast; linarith
  have := Nat.cast_lt.1 h2
  omega

theorem le_rounded {em : ExtendedMantissa} (h : Places em.mantissa x em.accuracy) {n : ℕ}
    (hx : n ≤ x) : n ≤ em.roundedMantissa := by
  have h1 := (abs_le.1 h.rounded).1
  have h2 : ((n : ℕ) : ℚ) < (em.roundedMantissa + 1 : ℕ) := by push_cast; linarith
  have := Nat.cast_lt.1 h2
  omega

end Places

/-- The exponent of a number whose leading bit is the bit of a given total exponent. -/
theorem targetExponent_eq (f : Format) (n : ℤ) :
    f.targetExponent n = max (n - f.mantissaBits) f.minExponent := rfl

theorem minExponent_le_targetExponent (f : Format) (n : ℤ) :
    f.minExponent ≤ f.targetExponent n := le_max_right _ _

theorem sub_mantissaBits_le_targetExponent (f : Format) (n : ℤ) :
    n - f.mantissaBits ≤ f.targetExponent n := le_max_left _ _

theorem totalExponent_eq (m : ℕ) (e : ℤ) : totalExponent m e = m.log2 + 1 + e := rfl

/-- What lies at a mantissa is less than the power of two behind its leading bit. -/
theorem Places.lt_two_pow (h : Places m x a) : x * 2 ^ e < 2 ^ totalExponent m e := by
  have h1 : ((m + 1 : ℕ) : ℚ) ≤ ((2 ^ (m.log2 + 1) : ℕ) : ℚ) := by
    exact_mod_cast Nat.lt_log2_self (n := m)
  have h2 : x < 2 ^ (m.log2 + 1) := by push_cast at h1; linarith [h.bounds.2]
  rw [totalExponent_eq, zpow_add₀ (by norm_num)]
  have := mul_lt_mul_of_pos_right h2 (zpow_pos (by norm_num : (0 : ℚ) < 2) e)
  exact_mod_cast this

/-- A mantissa that needs no shift to the left is full, or its exponent is the least one. -/
theorem le_mantissa (he : e ≤ f.targetExponent (totalExponent m e)) :
    f.targetExponent (totalExponent m e) = f.minExponent ∨
      (2 : ℚ) ^ (f.mantissaBits - 1) * 2 ^ f.targetExponent (totalExponent m e) ≤ m * 2 ^ e := by
  have hp := mantissaBits_eq f
  have hm := f.hm
  rw [targetExponent_eq, totalExponent_eq] at he ⊢
  rcases max_cases ((m.log2 : ℤ) + 1 + e - f.mantissaBits) f.minExponent with ⟨h1, h2⟩ | ⟨h1, -⟩
  · right
    rw [h1] at he ⊢
    have hne : m ≠ 0 := by
      rintro rfl
      unfold Format.mantissaBits at he
      simp only [Nat.log2_zero, CharP.cast_eq_zero] at he
      omega
    have hl : (2 : ℚ) ^ m.log2 ≤ m := by exact_mod_cast Nat.log2_self_le hne
    calc (2 : ℚ) ^ (f.mantissaBits - 1) * 2 ^ ((m.log2 : ℤ) + 1 + e - f.mantissaBits)
        = 2 ^ m.log2 * 2 ^ e := by
          rw [← zpow_natCast, ← zpow_natCast, ← zpow_add₀ (by norm_num), ← zpow_add₀ (by norm_num)]
          congr 1; omega
      _ ≤ m * 2 ^ e := mul_le_mul_of_nonneg_right hl (zpow_pos (by norm_num) e).le
  · exact .inl h1

/-- **The rounded mantissa at the target exponent** is nearest to the exact result, and it is full
unless the exponent is the least one. -/
theorem Places.nearest (h : Places m x a) (he : e ≤ f.targetExponent (totalExponent m e)) :
    let t := f.targetExponent (totalExponent m e)
    let r := (UnpackedFloat.shiftToExponent m e a t).1.roundedMantissa
    Nearest f (x * 2 ^ e) (r * 2 ^ t) ∧ r ≤ 2 ^ f.mantissaBits ∧
      (t = f.minExponent ∨ 2 ^ (f.mantissaBits - 1) ≤ r) := by
  intro t r
  have hpos : (0 : ℚ) < 2 ^ t := zpow_pos (by norm_num) t
  have hs := (h.shiftToExponent he).2
  have ht : f.minExponent ≤ t := minExponent_le_targetExponent f _
  have hlow : t = f.minExponent ∨ (2 : ℚ) ^ (f.mantissaBits - 1) * 2 ^ t ≤ x * 2 ^ e := by
    refine (le_mantissa he).imp_right fun h1 => h1.trans ?_
    exact mul_le_mul_of_nonneg_right h.bounds.1 (zpow_pos (by norm_num) e).le
  have hup : x * 2 ^ e / 2 ^ t < ((2 ^ f.mantissaBits : ℕ) : ℚ) := by
    rw [div_lt_iff₀ hpos]
    refine h.lt_two_pow.trans_le ?_
    push_cast
    rw [← zpow_natCast, ← zpow_add₀ (by norm_num)]
    have := sub_mantissaBits_le_targetExponent f (totalExponent m e)
    exact zpow_le_zpow_right₀ (by norm_num) (by omega)
  have hr : r ≤ 2 ^ f.mantissaBits := hs.rounded_le hup
  refine ⟨Nearest.of_units ht ?_ hlow hr, hr, hlow.imp_right fun h1 => hs.le_rounded ?_⟩
  · have h1 := hs.rounded
    have h2 : (r : ℚ) * 2 ^ t - x * 2 ^ e = (r - x * 2 ^ e / 2 ^ t) * 2 ^ t := by field_simp
    rw [h2, abs_mul, abs_of_pos hpos]
    nlinarith
  · rw [le_div_iff₀ hpos]; exact_mod_cast h1

/-- A mantissa with a bit too many is shifted once more, and loses nothing. -/
theorem shift_carry {r : ℕ} (ht : f.minExponent ≤ t) (hr : r ≤ 2 ^ f.mantissaBits)
    (hl : t = f.minExponent ∨ 2 ^ (f.mantissaBits - 1) ≤ r) :
    let s := shiftToTargetExponent f r t .exact
    (s.1.mantissa : ℚ) * 2 ^ s.2 = r * 2 ^ t ∧ s.1.mantissa < 2 ^ f.mantissaBits ∧
      f.minExponent ≤ s.2 ∧ (2 ^ (f.mantissaBits - 1) ≤ s.1.mantissa ∨ s.2 = f.minExponent) := by
  have hm := f.hm
  have h2 := two_pow_mantissaBits f
  -- either nothing is shifted, or the mantissa is a power of two and is halved
  rcases Nat.lt_or_ge r (2 ^ f.mantissaBits) with hlt | hge
  · have hlog : r.log2 < f.mantissaBits := by
      by_cases h0 : r = 0
      · rw [h0]; unfold Format.mantissaBits; simp only [Nat.log2_zero]; omega
      · exact (Nat.log2_lt h0).2 hlt
    have hk : (f.targetExponent (totalExponent r t) - t).toNat = 0 := by
      rw [targetExponent_eq, totalExponent_eq]; omega
    have hs : shiftToTargetExponent f r t .exact = (⟨r, false, false⟩, t) := by
      simp only [shiftToTargetExponent, UnpackedFloat.shiftToExponent, hk]
      simp [HShiftRight.hShiftRight, Nat.repeat, ExtendedMantissa.ofMantissaAndAccuracy]
    rw [hs]
    exact ⟨rfl, hlt, ht, hl.symm⟩
  · have hrr : r = 2 ^ f.mantissaBits := le_antisymm hr hge
    have hk : (f.targetExponent (totalExponent r t) - t).toNat = 1 := by
      rw [targetExponent_eq, totalExponent_eq, hrr, Nat.log2_two_pow]; omega
    have hs : shiftToTargetExponent f r t .exact = (⟨r / 2, r % 2 != 0, false⟩, t + 1) := by
      simp only [shiftToTargetExponent, UnpackedFloat.shiftToExponent, hk]
      simp [HShiftRight.hShiftRight, Nat.repeat, ExtendedMantissa.ofMantissaAndAccuracy,
        ExtendedMantissa.shiftRightOne]
    have hhalf : r / 2 = 2 ^ (f.mantissaBits - 1) := by omega
    rw [hs]
    refine ⟨?_, ?_, by omega, .inl hhalf.ge⟩
    · rw [hhalf, hrr, h2, zpow_add_one₀ (by norm_num)]; push_cast; ring
    · have := Nat.two_pow_pos (f.mantissaBits - 1)
      simp only [hhalf]; omega

/-- **Rounding to a format.** The result is in the form that the format holds, and nearest to the
exact number. -/
theorem roundWithAccuracy_spec (s : Sign) (h : Places m x a)
    (he : e ≤ f.targetExponent (totalExponent m e)) :
    Canonical f (roundWithAccuracy f s m e a) ∧
      Nearest f (signed s (x * 2 ^ e)) (value (roundWithAccuracy f s m e a)) := by
  obtain ⟨hn, hr, hl⟩ := h.nearest he
  have ht := minExponent_le_targetExponent f (totalExponent m e)
  obtain ⟨hv, hc⟩ := shift_carry ht hr hl
  have hsh : shiftToTargetExponent f m e a =
      ((UnpackedFloat.shiftToExponent m e a (f.targetExponent (totalExponent m e))).1,
        f.targetExponent (totalExponent m e)) := Prod.ext rfl (h.shiftToExponent he).1
  unfold roundWithAccuracy
  simp only [hsh]
  -- a mantissa that is rounded to nothing makes a zero
  split
  · rename_i h0
    rw [h0, Nat.cast_zero, zero_mul] at hv
    rw [← hv] at hn
    exact ⟨trivial, by simpa [value, signed_zero] using hn.signed s⟩
  · rw [← hv] at hn
    exact ⟨hc, hn.signed s⟩

end HaarDetection
