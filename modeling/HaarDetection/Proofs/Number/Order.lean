import HaarDetection.Proofs.Number.Arithmetic

/-!
# Comparing and cutting numbers

Comparisons look at signs, exponents and mantissas, and an integer is made of a number by shifting
its mantissa. Both agree with the rationals that the numbers stand for.

* `compare_eq`, `lt_iff`: **numbers compare as the rationals that they stand for.**
* `eq_of_compare_eq`: numbers that compare equal are equal, zeros with different signs apart.
* `roundToInt_eq`: a number is cut towards zero.
-/

namespace HaarDetection

open Float.Model (Format UnpackedFloat totalExponent)
open Float.Model.UnpackedFloat

variable {f : Format} {a b : UnpackedFloat}

/-- A greater exponent makes a greater number, whatever the mantissas. -/
theorem lt_of_exponent_lt {s s' : Sign} {m m' : ℕ} {e e' : ℤ} {hm : 0 < m} {hm' : 0 < m'}
    (ha : Canonical f (.finite s m e hm)) (hb : Canonical f (.finite s' m' e' hm')) (h : e < e') :
    (m : ℚ) * 2 ^ e < m' * 2 ^ e' := by
  have h1 : (m : ℚ) < 2 ^ f.mantissaBits := by exact_mod_cast ha.1
  have h2 : (2 : ℚ) ^ (f.mantissaBits - 1) ≤ m' := by
    have := ha.2.1
    exact_mod_cast hb.2.2.resolve_right (by omega)
  calc (m : ℚ) * 2 ^ e < 2 ^ f.mantissaBits * 2 ^ e :=
        mul_lt_mul_of_pos_right h1 (zpow_pos (by norm_num) e)
    _ = 2 ^ (f.mantissaBits - 1) * 2 ^ (e + 1) := by
        rw [mantissaBits_eq, pow_succ, Nat.add_sub_cancel, zpow_add_one₀ (by norm_num)]; ring
    _ ≤ 2 ^ (f.mantissaBits - 1) * 2 ^ e' :=
        mul_le_mul_of_nonneg_left (zpow_le_zpow_right₀ (by norm_num) (by omega)) (by positivity)
    _ ≤ m' * 2 ^ e' := mul_le_mul_of_nonneg_right h2 (zpow_pos (by norm_num) e').le

/-- **Exponents first, then mantissas:** this is the order of the magnitudes. -/
theorem compare_finite {s s' : Sign} {m m' : ℕ} {e e' : ℤ} {hm : 0 < m} {hm' : 0 < m'}
    (ha : Canonical f (.finite s m e hm)) (hb : Canonical f (.finite s' m' e' hm')) :
    (compare e e').then (compare m m') = compare ((m : ℚ) * 2 ^ e) (m' * 2 ^ e') := by
  -- with equal exponents the mantissas decide, otherwise they do not matter
  rcases lt_trichotomy e e' with h | rfl | h
  · rw [compare_lt_iff_lt.2 h, compare_lt_iff_lt.2 (lt_of_exponent_lt ha hb h)]; rfl
  · rw [compare_eq_iff_eq.2 (rfl : e = e)]
    have hp : (0 : ℚ) < 2 ^ e := zpow_pos (by norm_num) e
    change compare m m' = _
    rcases lt_trichotomy m m' with h | rfl | h
    · rw [compare_lt_iff_lt.2 h, compare_lt_iff_lt.2]
      exact mul_lt_mul_of_pos_right (by exact_mod_cast h) hp
    · rw [compare_eq_iff_eq.2 rfl, compare_eq_iff_eq.2 rfl]
    · rw [compare_gt_iff_gt.2 h, compare_gt_iff_gt.2]
      exact mul_lt_mul_of_pos_right (by exact_mod_cast h) hp
  · rw [compare_gt_iff_gt.2 h, compare_gt_iff_gt.2 (lt_of_exponent_lt hb ha h)]; rfl

theorem finite_pos {m : ℕ} (e : ℤ) (hm : 0 < m) : (0 : ℚ) < m * 2 ^ e :=
  mul_pos (by exact_mod_cast hm) (zpow_pos (by norm_num) e)

/-- **Numbers compare as the rationals that they stand for.** -/
theorem compare_eq (ha : Canonical f a) (hb : Canonical f b) :
    UnpackedFloat.compare a b = some (compare (value a) (value b)) := by
  cases a with
  | infinity s => exact ha.elim
  | notANumber => exact ha.elim
  | zero s =>
    cases b with
    | infinity s' => exact hb.elim
    | notANumber => exact hb.elim
    | zero s' => rfl
    | finite s' m' e' hm' =>
      have hpos := finite_pos e' hm'
      cases s' <;> refine congrArg some (Eq.symm ?_)
      · exact compare_gt_iff_gt.2 (neg_lt_zero.2 hpos)
      · exact compare_lt_iff_lt.2 hpos
  | finite s m e hm =>
    have hpos := finite_pos e hm
    cases b with
    | infinity s' => exact hb.elim
    | notANumber => exact hb.elim
    | zero s' =>
      cases s <;> refine congrArg some (Eq.symm ?_)
      · exact compare_lt_iff_lt.2 (neg_lt_zero.2 hpos)
      · exact compare_gt_iff_gt.2 hpos
    | finite s' m' e' hm' =>
      have hpos' := finite_pos e' hm'
      have hc := compare_finite ha hb
      cases s <;> cases s' <;> refine congrArg some ?_
      · rw [hc]
        simp only [value, signed]
        rcases lt_trichotomy ((m : ℚ) * 2 ^ e) (m' * 2 ^ e') with h | h | h
        · rw [compare_lt_iff_lt.2 h, compare_gt_iff_gt.2 (neg_lt_neg h)]; rfl
        · rw [h, compare_eq_iff_eq.2 rfl, compare_eq_iff_eq.2 rfl]; rfl
        · rw [compare_gt_iff_gt.2 h, compare_lt_iff_lt.2 (neg_lt_neg h)]; rfl
      · exact (compare_lt_iff_lt.2 (by simp only [value, signed]; linarith)).symm
      · exact (compare_gt_iff_gt.2 (by simp only [value, signed]; linarith)).symm
      · exact hc

theorem lt_iff (ha : Canonical f a) (hb : Canonical f b) :
    UnpackedFloat.lt a b = true ↔ value a < value b := by
  rw [UnpackedFloat.lt, compare_eq ha hb, beq_iff_eq, Option.some_inj, compare_lt_iff_lt]

theorem eq_of_compare_then_eq {m m' : ℕ} {e e' : ℤ} (h : (compare e e').then (compare m m') = .eq) :
    e = e' ∧ m = m' := by
  rw [Ordering.then_eq_eq] at h
  exact ⟨compare_eq_iff_eq.1 h.1, compare_eq_iff_eq.1 h.2⟩

/-- **Numbers that compare equal are equal**, but for the sign of a zero. -/
theorem eq_of_compare_eq (h : UnpackedFloat.compare a b = some .eq) :
    a = b ∨ (∃ s, a = .zero s) ∧ ∃ s, b = .zero s := by
  cases a with
  | notANumber => simp [UnpackedFloat.compare] at h
  | infinity s =>
    cases b <;> cases s <;> simp [UnpackedFloat.compare] at h
    all_goals rename_i s'; cases s'
    all_goals first | exact .inl rfl | exact absurd h (by decide)
  | zero s =>
    cases b with
    | zero s' => exact .inr ⟨⟨s, rfl⟩, s', rfl⟩
    | notANumber => simp [UnpackedFloat.compare] at h
    | infinity s' => cases s' <;> simp [UnpackedFloat.compare] at h
    | finite s' m' e' hm' => cases s' <;> simp [UnpackedFloat.compare] at h
  | finite s m e hm =>
    left
    cases b with
    | zero s' => cases s <;> simp [UnpackedFloat.compare] at h
    | notANumber => simp [UnpackedFloat.compare] at h
    | infinity s' => cases s' <;> simp [UnpackedFloat.compare] at h
    | finite s' m' e' hm' =>
      cases s <;> cases s' <;> simp only [UnpackedFloat.compare, Option.some.injEq, reduceCtorEq] at h
      · rw [Ordering.swap_eq_eq] at h
        obtain ⟨rfl, rfl⟩ := eq_of_compare_then_eq h
        rfl
      · obtain ⟨rfl, rfl⟩ := eq_of_compare_then_eq h
        rfl

/-- Finite numbers are determined by their values, but for the sign of a zero. -/
theorem eq_of_value_eq (ha : Canonical f a) (hb : Canonical f b) (h : value a = value b)
    (h0 : value a ≠ 0) : a = b := by
  have hc := compare_eq ha hb
  rw [compare_eq_iff_eq.2 h] at hc
  rcases eq_of_compare_eq hc with heq | ⟨⟨s, rfl⟩, -⟩
  · exact heq
  · exact absurd rfl h0

/-- **A number is cut** to the greatest integer below it. -/
theorem roundToInt_eq (s : Sign) (m : ℕ) (e : ℤ) :
    roundToInt s m e = s.apply ⌊(m : ℚ) * 2 ^ e⌋₊ := by
  have hle : (decreaseExponent m e 0).2 ≤ 0 := by simp only [decreaseExponent]; omega
  have hp : Places (decreaseExponent m e 0).1 (decreaseExponent m e 0).1 .exact := rfl
  have hb := (hp.shiftToExponent hle).2.bounds
  rw [decreaseExponent_value, zpow_zero, div_one] at hb
  have hfloor := (Nat.floor_eq_iff (by positivity)).2 hb
  rw [hfloor]
  rfl

end HaarDetection
