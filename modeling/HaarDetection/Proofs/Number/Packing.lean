import HaarDetection.Proofs.Number.Arithmetic

/-!
# Packed numbers

The numbers of a format are kept as bits. A finite number in the form that the format holds is
unpacked to what was packed, unless its exponent is too large, when it has become infinite.

* `unpack_pack`, `unpack_pack_of_large`: **what unpacking gives after packing.**
* `canonical_unpack`: what is unpacked is in the form that the format holds.
* `pack_unpack`: valid bits are packed to themselves.
-/

namespace HaarDetection

open Float.Model (Format UnpackedFloat)
open Float.Model.UnpackedFloat

variable {f : Format} {u : UnpackedFloat}

theorem finite_congr {s : Sign} {m m' : ℕ} {e e' : ℤ} {h : 0 < m} {h' : 0 < m'} (hm : m = m')
    (he : e = e') : UnpackedFloat.finite s m e h = .finite s m' e' h' := by
  subst hm he; rfl

theorem ofBitVec_toBitVec (s : Sign) : Sign.ofBitVec s.toBitVec = s := by cases s <;> rfl

theorem toBitVec_ofBitVec (b : BitVec 1) : (Sign.ofBitVec b).toBitVec = b := by
  unfold Sign.ofBitVec
  split
  · rename_i h; exact h.symm
  · rename_i h; exact ((BitVec.eq_zero_or_eq_one b).resolve_left h).symm

@[simp]
theorem unpackSign_packComponents {s : Sign} {e : BitVec f.exponentBits}
    {m : BitVec f.mantissaBitsWithoutImplicit} :
    unpackSign (packComponents f s e m) = s.toBitVec := by
  apply BitVec.eq_of_getLsbD_eq
  intro i hi
  obtain rfl : i = 0 := by omega
  simp [unpackSign, packComponents, BitVec.getLsbD_append, BitVec.getElem_append]

/-- Bits are made of a sign, an exponent and a mantissa. -/
theorem packComponents_unpack (b : BitVec f.numBits) :
    packComponents f (Sign.ofBitVec (unpackSign b)) (unpackExponent b) (unpackMantissa b) = b := by
  have hm := f.hm
  have he := f.he
  apply BitVec.eq_of_getLsbD_eq
  intro i hi
  have hi' : i < 1 + f.exponentBits + f.mantissaBitsWithoutImplicit := hi
  simp only [packComponents, toBitVec_ofBitVec, unpackSign, unpackExponent, unpackMantissa,
    BitVec.getLsbD_append, BitVec.getLsbD_cast, BitVec.getLsbD_extractLsb]
  split
  · simp; omega
  · split
    · rw [show f.mantissaBitsWithoutImplicit + (i - f.mantissaBitsWithoutImplicit) = i by omega]
      simp; omega
    · rw [show f.mantissaBitsWithoutImplicit + f.exponentBits +
        (i - f.mantissaBitsWithoutImplicit - f.exponentBits) = i by omega]
      simp; omega

/-- The number of exponents of the format above one half. -/
def exponentRange (f : Format) : ℕ := 2 ^ (f.exponentBits - 1)

theorem two_pow_exponentBits (f : Format) : 2 ^ f.exponentBits = 2 * exponentRange f := by
  have := f.he
  rw [exponentRange, ← pow_succ', show f.exponentBits - 1 + 1 = f.exponentBits by omega]

theorem exponentBias_eq (f : Format) : (f.exponentBias : ℤ) = exponentRange f - 1 := by
  have : 0 < exponentRange f := Nat.two_pow_pos _
  change ((exponentRange f - 1 : ℕ) : ℤ) = _
  omega

theorem minExponent_eq (f : Format) :
    f.minExponent = 2 - exponentRange f - f.mantissaBitsWithoutImplicit := by
  simp only [Format.minExponent, Format.mantissaBits, exponentRange]; push_cast; ring

theorem mantissaBits_sub_one (f : Format) : f.mantissaBits - 1 = f.mantissaBitsWithoutImplicit := by
  unfold Format.mantissaBits; omega

/-- A mantissa with the bit in front of it that is not kept. -/
theorem toNat_one_append {n : ℕ} (m : BitVec n) : (1#1 ++ m).toNat = 2 ^ n + m.toNat := by
  rw [BitVec.toNat_append, ← Nat.shiftLeft_add_eq_or_of_lt m.isLt, Nat.shiftLeft_eq]
  simp

/-- **What is unpacked is in the form that the format holds**, if it is finite. -/
theorem canonical_unpack (b : BitVec f.numBits) :
    Canonical f (unpack f b) ∨ (∃ s, unpack f b = .infinity s) ∨ unpack f b = .notANumber := by
  have hp := mantissaBits_sub_one f
  have h2 := two_pow_mantissaBits f
  have hbias := exponentBias_eq f
  have hmin := minExponent_eq f
  have hlt := (unpackMantissa b).isLt
  rw [hp] at h2
  unfold unpack
  simp only
  split
  · split
    · exact .inr (.inl ⟨_, rfl⟩)
    · exact .inr (.inr rfl)
  · split
    · split
      · exact .inl trivial
      · rename_i h0 _
        left
        refine ⟨by omega, ?_, .inr ?_⟩ <;> rw [h0] <;> simp <;> omega
    · rename_i h0
      left
      have hpos : 0 < (unpackExponent b).toNat := by
        exact (BitVec.toNat_pos _).2 ((BitVec.pos_iff_ne_zero _).2 h0)
      refine ⟨?_, by omega, .inl ?_⟩ <;> rw [toNat_one_append]
      · omega
      · rw [hp]; omega

/-- The exponent as it is kept. -/
theorem biased_eq {e : ℤ} (he : f.minExponent ≤ e) :
    ((e + f.exponentBias + f.mantissaBitsWithoutImplicit).toNat : ℤ) =
      e + exponentRange f - 1 + f.mantissaBitsWithoutImplicit := by
  have := minExponent_eq f
  have := exponentBias_eq f
  omega

theorem unpack_packedInfinity (s : Sign) : unpack f (packedInfinity f s) = .infinity s := by
  simp [packedInfinity, unpack]

/-- The exponent of the smallest numbers is not that of the infinite ones. -/
theorem zero_exponent_ne (f : Format) : (0#f.exponentBits) ≠ -1#f.exponentBits := by
  rw [Ne, eq_comm, BitVec.neg_one_eq_allOnes, ← BitVec.toNat_inj]
  have := Nat.one_lt_two_pow f.he.ne'
  simp; omega

theorem unpack_packedZero (s : Sign) : unpack f (packedZero f s) = .zero s := by
  have h := zero_exponent_ne f
  simp [packedZero, unpack, h]

/-- A full mantissa is one with a leading bit at the place that is not kept. -/
theorem log2_add_one_eq {m : ℕ} (hm : 0 < m) (hlt : m < 2 ^ f.mantissaBits) :
    m.log2 + 1 = f.mantissaBits ↔ 2 ^ f.mantissaBitsWithoutImplicit ≤ m := by
  have h1 := Nat.le_log2 (k := f.mantissaBitsWithoutImplicit) hm.ne'
  have h2 := (Nat.log2_lt hm.ne').2 hlt
  unfold Format.mantissaBits at *
  omega

theorem abs_signed (s : Sign) (q : ℚ) : |signed s q| = |q| := by
  cases s
  · exact abs_neg q
  · rfl

theorem abs_value_finite (s : Sign) {m : ℕ} {e : ℤ} (h : 0 < m) :
    |value (.finite s m e h)| = m * 2 ^ e := by
  rw [value_finite, abs_signed]
  exact abs_of_nonneg (by positivity)

/-- A number with an exponent that does not fit is too large. -/
theorem biased_lt {s : Sign} {m : ℕ} {e : ℤ} {hm : 0 < m} (he : 1 < f.exponentBits)
    (h : Canonical f (.finite s m e hm)) (hu : (m : ℚ) * 2 ^ e < 2 ^ exponentRange f) :
    (e + f.exponentBias + f.mantissaBitsWithoutImplicit).toNat + 1 < 2 ^ f.exponentBits := by
  obtain ⟨-, hle, hfull⟩ := h
  have hb := biased_eq hle
  have hmin := minExponent_eq f
  have hrange : 1 < exponentRange f := Nat.one_lt_two_pow (by omega)
  have h2e := two_pow_exponentBits f
  rw [mantissaBits_sub_one] at hfull
  by_contra hbig
  have h1 : 2 ^ f.mantissaBitsWithoutImplicit ≤ m := hfull.resolve_right (by omega)
  have h2 : ((2 : ℚ) ^ f.mantissaBitsWithoutImplicit) ≤ m := by exact_mod_cast h1
  have h3 : (2 : ℚ) ^ exponentRange f ≤ 2 ^ f.mantissaBitsWithoutImplicit * 2 ^ e := by
    rw [← zpow_natCast, ← zpow_natCast, ← zpow_add₀ (by norm_num)]
    exact zpow_le_zpow_right₀ (by norm_num) (by omega)
  have h4 := mul_le_mul_of_nonneg_right h2 (zpow_pos (by norm_num : (0 : ℚ) < 2) e).le
  linarith

/-- The number of a full mantissa `m`, of which the leading bit is not kept. -/
theorem unpack_full {B m : ℕ} {e : ℤ} (s : Sign) (hB0 : 0 < B) (hB : B + 1 < 2 ^ f.exponentBits)
    (hm : 0 < m) (hge : 2 ^ f.mantissaBitsWithoutImplicit ≤ m)
    (hlt : m < 2 * 2 ^ f.mantissaBitsWithoutImplicit)
    (he : e = B - (f.exponentBias + f.mantissaBitsWithoutImplicit)) :
    unpack f (packComponents f s (BitVec.ofNat _ B) (BitVec.ofNat _ m)) = .finite s m e hm := by
  have hBmod : B % 2 ^ f.exponentBits = B := Nat.mod_eq_of_lt (by omega)
  have hne1 : BitVec.ofNat f.exponentBits B ≠ -1#f.exponentBits := by
    rw [Ne, BitVec.neg_one_eq_allOnes, ← BitVec.toNat_inj]
    simp only [BitVec.toNat_ofNat, BitVec.toNat_allOnes, hBmod]; omega
  have hne0 : BitVec.ofNat f.exponentBits B ≠ 0#f.exponentBits := by
    rw [Ne, ← BitVec.toNat_inj]
    simp only [BitVec.toNat_ofNat, hBmod, Nat.zero_mod]; omega
  simp only [unpack, unpackExponent_packComponents, unpackMantissa_packComponents,
    unpackSign_packComponents, ofBitVec_toBitVec, if_neg hne1, if_neg hne0]
  apply finite_congr
  · rw [toNat_one_append, BitVec.toNat_ofNat, Nat.mod_eq_sub_mod hge, Nat.mod_eq_of_lt (by omega)]
    omega
  · simp only [BitVec.toNat_ofNat, hBmod]; omega

/-- The number of a mantissa `m` that is not full, which has the least exponent. -/
theorem unpack_least {m : ℕ} {e : ℤ} (s : Sign) (hm : 0 < m)
    (hlt : m < 2 ^ f.mantissaBitsWithoutImplicit)
    (he : e = 1 - (f.exponentBias + f.mantissaBitsWithoutImplicit)) :
    unpack f (packComponents f s 0#_ (BitVec.ofNat _ m)) = .finite s m e hm := by
  have hmod : m % 2 ^ f.mantissaBitsWithoutImplicit = m := Nat.mod_eq_of_lt hlt
  have hne0 : BitVec.ofNat f.mantissaBitsWithoutImplicit m ≠ 0#f.mantissaBitsWithoutImplicit := by
    rw [Ne, ← BitVec.toNat_inj]
    simp only [BitVec.toNat_ofNat, hmod, Nat.zero_mod]; omega
  simp only [unpack, unpackExponent_packComponents, unpackMantissa_packComponents,
    unpackSign_packComponents, ofBitVec_toBitVec, if_neg (zero_exponent_ne f), dif_neg hne0, if_true]
  apply finite_congr
  · simp only [BitVec.toNat_ofNat, hmod]
  · simp only [BitVec.toNat_ofNat, Nat.zero_mod]; omega

/-- **Finite numbers are unpacked to what was packed**, while the exponent fits. -/
theorem unpack_pack (he : 1 < f.exponentBits) (h : Canonical f u)
    (hu : |value u| < 2 ^ exponentRange f) : unpack f (pack f u) = u := by
  cases u with
  | infinity s => exact h.elim
  | notANumber => exact h.elim
  | zero s => exact unpack_packedZero s
  | finite s m e hm =>
    rw [abs_value_finite] at hu
    have hsmall := biased_lt he h hu
    obtain ⟨hlt, hle, hfull⟩ := h
    have hb := biased_eq hle
    have hlog := log2_add_one_eq (f := f) hm hlt
    have hmin := minExponent_eq f
    have hbias := exponentBias_eq f
    have h2m := two_pow_mantissaBits f
    rw [mantissaBits_sub_one] at hfull h2m
    unfold pack
    simp only
    rw [if_neg (not_le.2 hsmall)]
    split
    · rename_i hl
      exact unpack_full s (by omega) hsmall hm (hlog.1 hl) (by omega) (by omega)
    · rename_i hl
      exact unpack_least s hm (by omega) (by omega)

/-- **Numbers with an exponent that does not fit** have become infinite. -/
theorem unpack_pack_of_large {s : Sign} {m : ℕ} {e : ℤ} {hm : 0 < m}
    (h : Canonical f (.finite s m e hm)) (hu : 2 ^ exponentRange f ≤ (m : ℚ) * 2 ^ e) :
    unpack f (pack f (.finite s m e hm)) = .infinity s := by
  obtain ⟨hlt, hle, -⟩ := h
  have hb := biased_eq hle
  have h2e := two_pow_exponentBits f
  have hlarge : 2 ^ f.exponentBits ≤
      (e + f.exponentBias + f.mantissaBitsWithoutImplicit).toNat + 1 := by
    have h1 : (m : ℚ) < 2 ^ f.mantissaBits := by exact_mod_cast hlt
    have h2 : (2 : ℚ) ^ exponentRange f < 2 ^ f.mantissaBits * 2 ^ e :=
      hu.trans_lt (mul_lt_mul_of_pos_right h1 (zpow_pos (by norm_num) e))
    rw [← zpow_natCast, ← zpow_natCast, ← zpow_add₀ (by norm_num)] at h2
    have h3 := (zpow_lt_zpow_iff_right₀ (by norm_num : (1 : ℚ) < 2)).1 h2
    unfold Format.mantissaBits at h3
    omega
  simp only [pack, if_pos hlarge]
  exact unpack_packedInfinity s

theorem pack_unpack_components (he : 1 < f.exponentBits) (s : Sign) (e : BitVec f.exponentBits)
    (m : BitVec f.mantissaBitsWithoutImplicit)
    (hNaN : e = -1#_ → m ≠ 0#_ → packComponents f s e m = packedNaN f) :
    pack f (unpack f (packComponents f s e m)) = packComponents f s e m := by
  have hbias := exponentBias_eq f
  have h2e := two_pow_exponentBits f
  have hrange : 1 < exponentRange f := Nat.one_lt_two_pow (by omega)
  simp only [unpack, unpackExponent_packComponents, unpackMantissa_packComponents,
    unpackSign_packComponents, ofBitVec_toBitVec]
  have hm := m.isLt
  have hmb : f.mantissaBits = f.mantissaBitsWithoutImplicit + 1 := Nat.add_comm _ _
  split
  · rename_i h1
    split
    · rename_i h0; rw [h1, h0]; rfl
    · rename_i h0; exact (hNaN h1 h0).symm
  · rename_i h1
    split
    · rename_i h0
      split
      · rename_i hm0; rw [h0, hm0]; rfl
      · -- the least exponent
        rename_i hm0
        have hpos : 0 < m.toNat := (BitVec.toNat_pos _).2 ((BitVec.pos_iff_ne_zero _).2 hm0)
        have hlog := log2_add_one_eq (f := f) hpos (by rw [hmb, pow_succ]; omega)
        have hB : ((e.toNat : ℤ) - (f.exponentBias + f.mantissaBitsWithoutImplicit) + 1 +
            f.exponentBias + f.mantissaBitsWithoutImplicit).toNat = 1 := by
          rw [h0, BitVec.toNat_zero]; omega
        simp only [pack, hB, if_neg (show ¬ 2 ^ f.exponentBits ≤ 1 + 1 by omega),
          if_neg (show ¬ m.toNat.log2 + 1 = f.mantissaBits by omega), BitVec.ofNat_toNat,
          BitVec.setWidth_eq]
        rw [← h0]
    · -- a full mantissa
      rename_i h0
      have he1 : e.toNat + 1 < 2 ^ f.exponentBits := by
        have h2 : e.toNat ≠ 2 ^ f.exponentBits - 1 := by
          rw [← BitVec.toNat_allOnes, ← BitVec.neg_one_eq_allOnes]
          exact fun h => h1 (BitVec.eq_of_toNat_eq h)
        have := e.isLt
        omega
      have hlog := log2_add_one_eq (f := f) (m := (1#1 ++ m).toNat) (by simp)
        (by rw [toNat_one_append, hmb, pow_succ]; omega)
      have hge : 2 ^ f.mantissaBitsWithoutImplicit ≤ (1#1 ++ m).toNat := by
        rw [toNat_one_append]; omega
      have hB : ((e.toNat : ℤ) - (f.exponentBias + f.mantissaBitsWithoutImplicit) +
          f.exponentBias + f.mantissaBitsWithoutImplicit).toNat = e.toNat := by omega
      have hM : BitVec.ofNat f.mantissaBitsWithoutImplicit (1#1 ++ m).toNat = m := by
        apply BitVec.eq_of_toNat_eq
        rw [BitVec.toNat_ofNat, toNat_one_append, Nat.add_mod_left, Nat.mod_eq_of_lt hm]
      simp only [pack, hB, if_neg (show ¬ 2 ^ f.exponentBits ≤ e.toNat + 1 by omega),
        if_pos (hlog.2 hge), hM, BitVec.ofNat_toNat, BitVec.setWidth_eq]

/-- **Valid bits** are packed to themselves. -/
theorem pack_unpack (he : 1 < f.exponentBits) {b : BitVec f.numBits} (hb : f.Valid b) :
    pack f (unpack f b) = b := by
  have h := pack_unpack_components he (Sign.ofBitVec (unpackSign b)) (unpackExponent b)
    (unpackMantissa b) (by rw [packComponents_unpack]; exact hb.eq_packedNaN)
  rwa [packComponents_unpack] at h

end HaarDetection
