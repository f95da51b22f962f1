import HaarDetection.Proofs.Number.Rounding

/-!
# Arithmetic on unpacked numbers

Each operation on finite numbers gives a nearest number of the format to the exact result.

* `RoundsTo`: what an operation that rounds an exact result gives.
* `round_spec`, `normalize_spec`, `ofNat_spec`: mantissas and integers are rounded.
* `add_spec`, `mul_spec`, `div_spec`: **the operations round exact results.**
-/

namespace HaarDetection

open Float.Model (Format UnpackedFloat totalExponent)
open Float.Model.UnpackedFloat

variable {f : Format} {a b : UnpackedFloat}

/-- What an operation that rounds `x` gives: a number that the format holds, nearest to `x`. -/
def RoundsTo (f : Format) (x : ℚ) (u : UnpackedFloat) : Prop := Canonical f u ∧ Nearest f x (value u)

theorem RoundsTo.refl (h : Canonical f a) : RoundsTo f (value a) a :=
  ⟨h, Nearest.of_grid (canonical_onGrid h)⟩

theorem RoundsTo.zero (s : Sign) : RoundsTo f 0 (.zero s) := ⟨trivial, Nearest.of_grid OnGrid.zero⟩

theorem value_zero (s : Sign) : value (.zero s) = 0 := rfl

theorem value_finite (s : Sign) (m : ℕ) (e : ℤ) (h : 0 < m) :
    value (.finite s m e h) = signed s (m * 2 ^ e) := rfl

theorem decreaseExponent_value (m : ℕ) (e t : ℤ) :
    ((decreaseExponent m e t).1 : ℚ) * 2 ^ (decreaseExponent m e t).2 = m * 2 ^ e := by
  simp only [decreaseExponent, Nat.shiftLeft_eq, Nat.cast_mul, Nat.cast_pow, Nat.cast_ofNat]
  rw [← zpow_natCast, mul_assoc, ← zpow_add₀ (by norm_num)]
  congr 2; omega

theorem decreaseExponent_snd {m : ℕ} {e t : ℤ} (h : t ≤ e) : (decreaseExponent m e t).2 = t := by
  simp only [decreaseExponent]; omega

theorem log2_shiftLeft {m : ℕ} (hm : 0 < m) (k : ℕ) : (m <<< k).log2 = m.log2 + k := by
  have h1 := Nat.log2_self_le hm.ne'
  have h2 := Nat.lt_log2_self (n := m)
  rw [Nat.shiftLeft_eq, Nat.log2_eq_iff (by positivity), pow_add,
    show m.log2 + k + 1 = m.log2 + 1 + k by omega, pow_add]
  exact ⟨Nat.mul_le_mul_right _ h1, Nat.mul_lt_mul_of_pos_right h2 (Nat.two_pow_pos k)⟩

theorem round_spec (s : Sign) {m : ℕ} (hm : 0 < m) (e : ℤ) :
    RoundsTo f (signed s (m * 2 ^ e)) (UnpackedFloat.round f s m e) := by
  set t := f.targetExponent (totalExponent m e) with ht
  set d := decreaseExponent m e t with hd
  have hlog : (d.1.log2 : ℤ) = m.log2 + (e - t).toNat := by
    rw [show d.1 = m <<< (e - t).toNat from rfl, log2_shiftLeft hm]; push_cast; rfl
  have he : d.2 = e - (e - t).toNat := rfl
  have htot : totalExponent d.1 d.2 = totalExponent m e := by
    rw [totalExponent_eq, totalExponent_eq, hlog, he]; omega
  have hle : d.2 ≤ f.targetExponent (totalExponent d.1 d.2) := by rw [htot, ← ht, he]; omega
  have := roundWithAccuracy_spec (f := f) (x := d.1) (a := .exact) s rfl hle
  rwa [decreaseExponent_value] at this

theorem normalize_spec (n : ℤ) (e : ℤ) (s : Sign) :
    RoundsTo f (n * 2 ^ e) (UnpackedFloat.normalize f n e s) := by
  unfold UnpackedFloat.normalize
  rcases lt_trichotomy n 0 with hn | rfl | hn
  · rw [show compare n 0 = .lt from compare_lt_iff_lt.2 hn]
    have h := round_spec (f := f) .negative (show 0 < (-n).toNat by omega) e
    have hc : (((-n).toNat : ℕ) : ℚ) = -n := by exact_mod_cast Int.toNat_of_nonneg (by omega)
    rw [hc] at h
    simpa [signed] using h
  · simpa using RoundsTo.zero s
  · rw [show compare n 0 = .gt from compare_gt_iff_gt.2 hn]
    have h := round_spec (f := f) .positive (show 0 < n.toNat by omega) e
    have hc : ((n.toNat : ℕ) : ℚ) = n := by exact_mod_cast Int.toNat_of_nonneg (by omega)
    rwa [hc] at h

/-- **A natural number as a floating-point number.** -/
theorem ofNat_spec (n : ℕ) : RoundsTo f n (UnpackedFloat.ofNat f n) := by
  have h := normalize_spec (f := f) n 0 .positive
  rwa [zpow_zero, mul_one, Int.cast_natCast] at h

/-- Numbers whose mantissa is not full have the least exponent. -/
theorem mul_exponent_le {s s' : Sign} {m m' : ℕ} {e e' : ℤ} {hm : 0 < m} {hm' : 0 < m'}
    (ha : Canonical f (.finite s m e hm)) (hb : Canonical f (.finite s' m' e' hm')) :
    e + e' ≤ f.targetExponent (totalExponent (m * m') (e + e')) := by
  have hp := mantissaBits_eq f
  have h0 := minExponent_nonpos f
  have h1 := minExponent_le_targetExponent f (totalExponent (m * m') (e + e'))
  have h2 := sub_mantissaBits_le_targetExponent f (totalExponent (m * m') (e + e'))
  rw [totalExponent_eq] at h1 h2 ⊢
  by_cases hfull : 2 ^ (f.mantissaBits - 1) ≤ m * m'
  · have := (Nat.le_log2 (Nat.mul_pos hm hm').ne').2 hfull
    omega
  · have hl := Nat.le_mul_of_pos_right m hm'
    have hr := Nat.le_mul_of_pos_left m' hm
    have := ha.2.2.resolve_left (by omega)
    have := hb.2.2.resolve_left (by omega)
    omega

theorem signed_mul (s s' : Sign) (q q' : ℚ) : signed (s * s') (q * q') = signed s q * signed s' q' := by
  cases s <;> cases s' <;> simp only [signed] <;> first | exact (neg_mul_neg q q').symm | ring

theorem signed_div (s s' : Sign) (q q' : ℚ) : signed (s / s') (q / q') = signed s q / signed s' q' := by
  cases s <;> cases s'
  · exact (neg_div_neg_eq q q').symm
  · exact (neg_div q' q).symm
  · exact (div_neg q).symm
  · rfl

/-- **Products are rounded.** -/
theorem mul_spec (ha : Canonical f a) (hb : Canonical f b) :
    RoundsTo f (value a * value b) (UnpackedFloat.mul f a b) := by
  -- zeros are handled apart, as they have no mantissa to multiply
  cases a with
  | infinity s => exact ha.elim
  | notANumber => exact ha.elim
  | zero s =>
    rw [value_zero, zero_mul]
    cases b with
    | infinity s' => exact hb.elim
    | notANumber => exact hb.elim
    | zero s' => exact RoundsTo.zero _
    | finite s' m' e' hm' => exact RoundsTo.zero _
  | finite s m e hm =>
    cases b with
    | infinity s' => exact hb.elim
    | notANumber => exact hb.elim
    | zero s' => rw [value_zero, mul_zero]; exact RoundsTo.zero _
    | finite s' m' e' hm' =>
      have h := roundWithAccuracy_spec (f := f) (x := (m * m' : ℕ)) (a := .exact) (s * s') rfl
        (mul_exponent_le ha hb)
      have hx : ((m * m' : ℕ) : ℚ) * 2 ^ (e + e') = (m * 2 ^ e) * (m' * 2 ^ e') := by
        rw [zpow_add₀ (by norm_num)]; push_cast; ring
      rw [hx, signed_mul] at h
      exact h

/-- **Sums are rounded.** -/
theorem add_spec (ha : Canonical f a) (hb : Canonical f b) :
    RoundsTo f (value a + value b) (UnpackedFloat.add f a b) := by
  cases a with
  | infinity s => exact ha.elim
  | notANumber => exact ha.elim
  | zero s =>
    rw [value_zero, zero_add]
    cases b with
    | infinity s' => exact hb.elim
    | notANumber => exact hb.elim
    | zero s' => simp only [UnpackedFloat.add]; split <;> exact RoundsTo.zero _
    | finite s' m' e' hm' => exact RoundsTo.refl hb
  | finite s m e hm =>
    cases b with
    | infinity s' => exact hb.elim
    | notANumber => exact hb.elim
    | zero s' => rw [value_zero, add_zero]; exact RoundsTo.refl ha
    | finite s' m' e' hm' =>
      -- both mantissas are shifted to the smaller exponent, which loses nothing
      have h := normalize_spec (f := f)
        (s.apply ((decreaseExponent m e (min e e')).1 : ℤ) +
          s'.apply ((decreaseExponent m' e' (min e e')).1 : ℤ)) (min e e') .positive
      have h1 := decreaseExponent_value m e (min e e')
      have h2 := decreaseExponent_value m' e' (min e e')
      rw [decreaseExponent_snd (min_le_left e e')] at h1
      rw [decreaseExponent_snd (min_le_right e e')] at h2
      push_cast at h
      rw [add_mul, signed_apply, signed_apply, Int.cast_natCast, Int.cast_natCast, h1, h2] at h
      exact h

/-- Where a quotient lies, from what is left over of a division. -/
theorem places_div {n d : ℕ} (hd : 0 < d) :
    Places (n / d) ((n : ℚ) / d) (accuracyOfFraction (n % d) d) := by
  have hdq : (0 : ℚ) < d := by exact_mod_cast hd
  have hn : (n : ℚ) / d = (n / d : ℕ) + ((n % d : ℕ) : ℚ) / d := by
    rw [div_eq_iff hdq.ne', add_mul, div_mul_cancel₀ _ hdq.ne']
    exact_mod_cast (Nat.div_add_mod' n d).symm
  have hr : ((n % d : ℕ) : ℚ) < d := by exact_mod_cast Nat.mod_lt n hd
  rw [hn]
  generalize n / d = q at *
  generalize n % d = r at *
  unfold accuracyOfFraction
  split
  · rename_i h0; simp [Places, h0]
  · rename_i h0
    have hr0 : (0 : ℚ) < r := by exact_mod_cast Nat.pos_of_ne_zero h0
    have hpos : (0 : ℚ) < r / d := by positivity
    have hlt : (r : ℚ) / d < 1 := by rwa [div_lt_one hdq]
    rcases lt_trichotomy (2 * r) d with h | h | h
    · rw [show compare (2 * r) d = .lt from compare_lt_iff_lt.2 h]
      have h' : (2 : ℚ) * r < d := by exact_mod_cast h
      have : (r : ℚ) / d < 1 / 2 := by rw [div_lt_div_iff₀ hdq (by norm_num)]; linarith
      exact ⟨by linarith, by linarith⟩
    · rw [show compare (2 * r) d = .eq from compare_eq_iff_eq.2 h]
      have h' : (2 : ℚ) * r = d := by exact_mod_cast h
      have : (r : ℚ) / d = 1 / 2 := by rw [div_eq_div_iff hdq.ne' (by norm_num)]; linarith
      simp only [Places]; linarith
    · rw [show compare (2 * r) d = .gt from compare_gt_iff_gt.2 h]
      have h' : (d : ℚ) < 2 * r := by exact_mod_cast h
      have : (1 : ℚ) / 2 < r / d := by rw [div_lt_div_iff₀ (by norm_num) hdq]; linarith
      exact ⟨by linarith, by linarith⟩

/-- The leading bit of a quotient. -/
theorem log2_div {n d : ℕ} (hn : 0 < n) (hd : 0 < d) : n.log2 ≤ (n / d).log2 + d.log2 + 1 := by
  have h1 := Nat.lt_log2_self (n := n / d)
  have h2 := Nat.lt_log2_self (n := d)
  have h3 : n < (n / d + 1) * d := by
    have := Nat.div_add_mod' n d; have := Nat.mod_lt n hd; rw [Nat.add_mul]; omega
  have h4 : n < 2 ^ ((n / d).log2 + d.log2 + 1 + 1) :=
    calc n < (n / d + 1) * d := h3
      _ ≤ 2 ^ ((n / d).log2 + 1) * 2 ^ (d.log2 + 1) := Nat.mul_le_mul h1 h2.le
      _ = 2 ^ ((n / d).log2 + d.log2 + 1 + 1) := by rw [← pow_add]; congr 1; omega
  have := (Nat.log2_lt hn.ne').2 h4
  omega

/-- The quotient of two mantissas, with as many bits as the format has. -/
theorem divCore_spec {m m' : ℕ} (e e' : ℤ) (hm : 0 < m) (hm' : 0 < m') :
    let d := divCore f m e m' e'
    ∃ x, Places d.1 x d.2.2 ∧ x * 2 ^ d.2.1 = m * 2 ^ e / (m' * 2 ^ e') ∧
      d.2.1 ≤ f.targetExponent (totalExponent d.1 d.2.1) := by
  set t := min (e - e') (f.targetExponent (totalExponent m e - totalExponent m' e')) with ht
  set n := m <<< (e - e' - t).toNat with hn
  have hk : ((e - e' - t).toNat : ℤ) = e - e' - t := by omega
  have hns : n = m * 2 ^ (e - e' - t).toNat := Nat.shiftLeft_eq _ _
  refine ⟨(n : ℚ) / m', places_div hm', ?_, ?_⟩
  · change (n : ℚ) / m' * 2 ^ t = _
    -- the shift of the dividend is taken back by the exponent of the quotient
    have hm'q : (m' : ℚ) ≠ 0 := by exact_mod_cast hm'.ne'
    have hz : ((2 : ℚ) ^ (e - e' - t).toNat) * 2 ^ t * 2 ^ e' = 2 ^ e := by
      rw [← zpow_natCast, ← zpow_add₀ (by norm_num), ← zpow_add₀ (by norm_num), hk]; congr 1; ring
    rw [hns]; push_cast
    rw [div_mul_eq_mul_div, div_eq_div_iff hm'q (by positivity), ← hz]; ring
  · change t ≤ f.targetExponent (totalExponent (n / m') t)
    have hlog : (n.log2 : ℤ) = m.log2 + (e - e' - t) := by
      rw [hn, log2_shiftLeft hm, Nat.cast_add, hk]
    have hnp : 0 < n := by rw [hns]; positivity
    have hq := log2_div hnp hm'
    have h1 : totalExponent m e - totalExponent m' e' ≤ totalExponent (n / m') t := by
      simp only [totalExponent_eq]; omega
    have h2 : f.targetExponent (totalExponent m e - totalExponent m' e') ≤
        f.targetExponent (totalExponent (n / m') t) := by
      simp only [targetExponent_eq]; omega
    omega

/-- **Quotients are rounded.** -/
theorem div_spec (ha : Canonical f a) (hb : Canonical f b) (h0 : value b ≠ 0) :
    RoundsTo f (value a / value b) (UnpackedFloat.div f a b) := by
  cases b with
  | infinity s' => exact hb.elim
  | notANumber => exact hb.elim
  | zero s' => exact absurd rfl h0
  | finite s' m' e' hm' =>
    cases a with
    | infinity s => exact ha.elim
    | notANumber => exact ha.elim
    | zero s => rw [value_zero, zero_div]; exact RoundsTo.zero _
    | finite s m e hm =>
      obtain ⟨x, hx, hv, he⟩ := divCore_spec (f := f) e e' hm hm'
      have h := roundWithAccuracy_spec (f := f) (s / s') hx he
      rw [hv, signed_div] at h
      exact h

end HaarDetection
